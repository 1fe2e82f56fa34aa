import ClassStamp.Proofs.ClassFile.Slots

/-!
# Where a class file ends

The bytes of a class file tell where it ends. A reader that succeeds has taken bytes off the
front that it takes again whatever follows them, and if they break off before their end, the
reader fails at the place where bytes are missing (`Decoder.Delimits`). This is so for the
readers of integers and of runs of bytes, and it is kept by reading one thing after the other
(`delimits_bind`), so it holds of all parts of a class file.

* `delimits_many`, `delimits_counted`: lists;
* `delimits_constant`, `delimits_readSlots`, `delimits_attribute`, `delimits_member`,
  `delimits_read`: the parts of a class file and the whole;
* `parse_delimited`: a class file that breaks off, or that something follows.
-/

namespace ClassStamp

namespace Decoder

variable {α β : Type}

/-- Where the given bytes break off before their end, the decoder fails for want of bytes: at
a place among those that are there, with a need that goes beyond them. -/
def FailsShort (d : Decoder α) (taken : Bytes) : Prop :=
  ∀ offset short lost, short ++ lost = taken → lost ≠ [] →
    ∃ place needed, d ⟨offset, short⟩ = .error (.truncated place needed) ∧
      place ≤ offset + short.length ∧ offset + short.length < place + needed

/-- What the decoder takes for a value is delimited by itself: it is taken for the value
again whatever follows, and no smaller part of it is taken for anything. -/
def Delimits (d : Decoder α) : Prop :=
  ∀ c c' a, d c = .ok (a, c') →
    ∃ taken, c.rest = taken ++ c'.rest ∧ d.Reads a taken ∧ d.FailsShort taken

/-! ## Reading one thing after the other -/

theorem delimits_pure (a : α) : Delimits (pure a) := by
  intro c c' b h
  cases h
  refine ⟨[], rfl, reads_pure a, fun offset short lost hcut hlost => ?_⟩
  exact absurd (List.append_eq_nil_iff.1 hcut).2 hlost

theorem delimits_throw (e : ClassFileError) : Delimits (throw e : Decoder α) := by
  intro c c' a h
  cases h

/-- The bytes break off within those of the first part, or within those of the second. -/
theorem FailsShort.bind {d : Decoder α} {f : α → Decoder β} {a : α} {xs ys : Bytes}
    (hreads : d.Reads a xs) (h : d.FailsShort xs) (hf : (f a).FailsShort ys) :
    (d >>= f).FailsShort (xs ++ ys) := by
  intro offset short lost hcut hlost
  have hsecond : ∀ second, second ++ lost = ys → short = xs ++ second →
      ∃ place needed, (d >>= f) ⟨offset, short⟩ = .error (.truncated place needed) ∧
        place ≤ offset + short.length ∧ offset + short.length < place + needed := by
    rintro second hys rfl
    rw [bind_apply, hreads, List.length_append, ← Nat.add_assoc]
    exact hf _ second lost hys hlost
  rcases List.append_eq_append_iff.1 hcut with ⟨missing, hxs, hmissing⟩ | ⟨second, hshort, hys⟩
  · by_cases hnone : missing = []
    · subst hnone
      exact hsecond [] hmissing (by rw [hxs, List.append_nil, List.append_nil])
    · obtain ⟨place, needed, herror, hbounds⟩ := h offset short missing hxs.symm hnone
      exact ⟨place, needed, by rw [bind_apply, herror], hbounds⟩
  · exact hsecond second hys.symm hshort

theorem delimits_bind {d : Decoder α} {f : α → Decoder β} (h : Delimits d)
    (hf : ∀ a, Delimits (f a)) : Delimits (d >>= f) := by
  intro c c' b hb
  obtain ⟨a, c₁, ha, hb⟩ := bind_eq_ok hb
  obtain ⟨xs, hxs, hreads, hshort⟩ := h c c₁ a ha
  obtain ⟨ys, hys, hreads', hshort'⟩ := hf a c₁ c' b hb
  exact ⟨xs ++ ys, by rw [hxs, hys, List.append_assoc], hreads.bind hreads',
    hshort.bind hreads hshort'⟩

/-- A decoder that always takes the same number of bytes, and says so if there are fewer. -/
theorem delimits_of_length {d : Decoder α} (n : Nat)
    (htaken : ∀ c c' a, d c = .ok (a, c') →
      ∃ taken, taken.length = n ∧ c.rest = taken ++ c'.rest ∧ d.Reads a taken)
    (hshort : ∀ c, c.rest.length < n → d c = .error (.truncated c.offset n)) : Delimits d := by
  intro c c' a h
  obtain ⟨taken, rfl, hrest, hreads⟩ := htaken c c' a h
  refine ⟨taken, hrest, hreads, fun offset short lost hcut hlost => ?_⟩
  have hlt : short.length < taken.length := by
    have hpos := List.length_pos_iff.2 hlost
    rw [← hcut, List.length_append]
    omega
  exact ⟨offset, taken.length, hshort ⟨offset, short⟩ hlt, by omega, by omega⟩

theorem delimits_u8 : Delimits u8 := by
  refine delimits_of_length 1 (fun c c' b h => ⟨[b], rfl, u8_eq_ok h, reads_u8 b⟩) ?_
  rintro ⟨offset, _ | ⟨b, rest⟩⟩ h
  · rfl
  · exact absurd h (by simp)

theorem delimits_u16 : Delimits u16 := by
  refine delimits_of_length 2 (fun c c' v h => ⟨_, rfl, u16_eq_ok h, reads_u16 v⟩) ?_
  rintro ⟨offset, _ | ⟨a, _ | ⟨b, rest⟩⟩⟩ h
  · rfl
  · rfl
  · exact absurd h (by simp)

theorem delimits_u32 : Delimits u32 := by
  refine delimits_of_length 4 (fun c c' v h => ⟨_, rfl, u32_eq_ok h, reads_u32 v⟩) ?_
  rintro ⟨offset, _ | ⟨a, _ | ⟨b, _ | ⟨d, _ | ⟨e, rest⟩⟩⟩⟩⟩ h
  · rfl
  · rfl
  · rfl
  · rfl
  · exact absurd h (by simp)

theorem delimits_u64 : Delimits u64 :=
  delimits_bind delimits_u32 fun _ => delimits_bind delimits_u32 fun _ => delimits_pure _

theorem delimits_bytes (n : Nat) : Delimits (bytes n) := by
  refine delimits_of_length n (fun c c' xs h => ?_) fun c h => ?_
  · obtain ⟨hlen, hrest⟩ := bytes_eq_ok h
    exact ⟨xs, hlen, hrest, reads_bytes hlen⟩
  · rw [bytes, if_neg]
    rw [List.length_take]
    omega

theorem delimits_many {d : Decoder α} (h : Delimits d) (n : Nat) : Delimits (many d n) := by
  induction n with
  | zero => exact delimits_pure []
  | succ n ih => exact delimits_bind h fun _ => delimits_bind ih fun _ => delimits_pure _

theorem delimits_counted {d : Decoder α} (h : Delimits d) : Delimits (counted d) :=
  delimits_bind delimits_u16 fun n => delimits_many h n.toNat

/-! ## The parts of a class file -/

/-- The last step of a decoder, which takes nothing. -/
theorem Delimits.map {d : Decoder α} (h : Delimits d) (f : α → β) :
    Delimits (do return f (← d)) :=
  delimits_bind h fun _ => delimits_pure _

theorem delimits_pair (f : UInt16 → UInt16 → α) : Delimits (do return f (← u16) (← u16)) :=
  delimits_bind delimits_u16 fun a => delimits_u16.map (f a)

end Decoder

open Decoder

theorem delimits_constant (index : Nat) : Delimits (Constant.read index) := by
  refine delimits_bind delimits_u8 fun tag => ?_
  split
  case h_1 => exact delimits_bind delimits_u16 fun n => (delimits_bytes n.toNat).map _
  case h_2 => exact delimits_u32.map _
  case h_3 => exact delimits_u32.map _
  case h_4 => exact delimits_u64.map _
  case h_5 => exact delimits_u64.map _
  case h_12 => exact delimits_bind delimits_u8 fun _ => delimits_u16.map _
  case h_18 => exact delimits_throw _
  case h_6 | h_7 | h_13 | h_16 | h_17 => exact delimits_u16.map _
  all_goals exact delimits_pair _

theorem delimits_readSlots (count index : Nat) :
    Delimits (ConstantPool.readSlots count index) := by
  by_cases hlt : index < count
  · rw [ConstantPool.readSlots_of_lt hlt]
    exact delimits_bind (delimits_constant index) fun x =>
      (delimits_readSlots count (index + x.slots.length)).map _
  · rw [ConstantPool.readSlots_of_le (by omega)]
    exact delimits_pure []
termination_by count - index
decreasing_by
  have := x.length_slots_pos
  omega

theorem delimits_pool : Delimits ConstantPool.read :=
  delimits_bind delimits_u16 fun count => (delimits_readSlots count.toNat 1).map _

theorem delimits_attribute : Delimits Attribute.read :=
  delimits_bind delimits_u16 fun _ => delimits_bind delimits_u32 fun n =>
    (delimits_bytes n.toNat).map _

theorem delimits_member : Delimits Member.read :=
  delimits_bind delimits_u16 fun _ => delimits_bind delimits_u16 fun _ =>
    delimits_bind delimits_u16 fun _ => (delimits_counted delimits_attribute).map _

namespace ClassFile

theorem delimits_read : Delimits read := by
  refine delimits_bind delimits_u32 fun first => ?_
  dsimp only
  have hrest : Delimits (do
      let minorVersion ← u16
      let majorVersion ← u16
      let pool ← ConstantPool.read
      let accessFlags ← u16
      let thisClass ← u16
      let superClass ← u16
      let interfaces ← counted u16
      let fields ← counted Member.read
      let methods ← counted Member.read
      let attributes ← counted Attribute.read
      return ({
        minorVersion, majorVersion, pool, accessFlags := ⟨accessFlags⟩, thisClass, superClass,
        interfaces, fields, methods, attributes } : ClassFile)) :=
    delimits_bind delimits_u16 fun _ => delimits_bind delimits_u16 fun _ =>
    delimits_bind delimits_pool fun _ => delimits_bind delimits_u16 fun _ =>
    delimits_bind delimits_u16 fun _ => delimits_bind delimits_u16 fun _ =>
    delimits_bind (delimits_counted delimits_u16) fun _ =>
    delimits_bind (delimits_counted delimits_member) fun _ =>
    delimits_bind (delimits_counted delimits_member) fun _ =>
    (delimits_counted delimits_attribute).map _
  split
  · exact delimits_bind (delimits_throw _) fun _ => hrest
  · exact hrest

/-- The bytes of a class file end where they say. Where they break off before that, reading
them fails for want of bytes, at a place among those that are there and with a need that goes
beyond them; and bytes behind them are refused, with their number. -/
theorem parse_delimited {b : Bytes} {c : ClassFile} (h : parse b = .ok c) :
    (∀ short, short <+: b → short ≠ b → ∃ offset needed,
      parse short = .error (.truncated offset needed) ∧
        offset ≤ short.length ∧ short.length < offset + needed) ∧
    ∀ more, more ≠ [] → parse (b ++ more) = .error (.trailingBytes more.length) := by
  unfold parse Decoder.run at h
  split at h
  · cases h
  rename_i c' cursor hread
  split at h
  case h_2 => cases h
  rename_i hend
  cases h
  obtain ⟨taken, hb, hreads, hshort⟩ := delimits_read ⟨0, b⟩ cursor c hread
  dsimp only at hb
  rw [hend, List.append_nil] at hb
  subst hb
  constructor
  · rintro short ⟨lost, hlost⟩ hne
    obtain ⟨offset, needed, herror, hbounds⟩ := hshort 0 short lost hlost fun hnil => by
      rw [hnil, List.append_nil] at hlost
      exact hne hlost
    rw [Nat.zero_add] at hbounds
    exact ⟨offset, needed, by rw [parse, run, StateT.run, herror], hbounds⟩
  · intro more hmore
    rw [parse, run, StateT.run, hreads]
    cases more with
    | nil => exact absurd rfl hmore
    | cons byte rest => rfl

/-- A class file with the constant `A` and a field that has an attribute of two bytes, which
end at 40. -/
def nestedBytes : Bytes :=
  [0xCA, 0xFE, 0xBA, 0xBE, 0, 0, 0, 52, 0, 2, 1, 0, 1, 65, 0, 0, 0, 0, 0, 0, 0, 0] ++
    [0, 1, 0, 0, 0, 1, 0, 1, 0, 1, 0, 1, 0, 0, 0, 2, 7, 7] ++
    [0, 0, 0, 0]

/-- Cut inside the attribute of its field, and followed by two more bytes. -/
theorem nestedBytes_delimited :
    (∃ c, parse nestedBytes = .ok c ∧ c.fields.map (·.attributes) = [[⟨1, [7, 7]⟩]]) ∧
    (∃ offset needed, parse (nestedBytes.take 39) = .error (.truncated offset needed) ∧
      offset ≤ 39 ∧ 39 < offset + needed) ∧
    parse (nestedBytes ++ [0, 0]) = .error (.trailingBytes 2) := by
  have hfields : (parse nestedBytes).map (fun c => c.fields.map (·.attributes)) =
      .ok [[⟨1, [7, 7]⟩]] := by decide +kernel
  cases hc : parse nestedBytes with
  | error e =>
    rw [hc] at hfields
    cases hfields
  | ok c =>
    rw [hc] at hfields
    obtain ⟨hcut, hmore⟩ := parse_delimited hc
    exact ⟨⟨c, rfl, Except.ok.inj hfields⟩,
      hcut _ (List.take_prefix 39 _) (by decide), hmore [0, 0] (List.cons_ne_nil _ _)⟩

end ClassFile

end ClassStamp
