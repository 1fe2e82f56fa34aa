import ClassStamp.ClassName

/-!
# Maps from class names

A finite map from class names, kept as a list of entries of which no two have
the same name as long as it is built with `insert` and `erase`.

* `get?_insert` and `get?_erase` say what a change does to every name.
-/

namespace ClassStamp

/-- A finite map from class names. -/
structure NameMap (α : Type) where
  /-- The names with what they are mapped to. -/
  entries : List (ClassName × α)

namespace NameMap

variable {α : Type}

/-- The map without names. -/
def empty : NameMap α := ⟨[]⟩

/-- The number of entries. -/
def size (m : NameMap α) : Nat := m.entries.length

/-- What a name is mapped to. -/
def get? (m : NameMap α) (n : ClassName) : Option α := m.entries.lookup n

/-- Whether the map has a name. -/
def contains (m : NameMap α) (n : ClassName) : Bool := (m.get? n).isSome

/-- The map without a name. -/
def erase (m : NameMap α) (n : ClassName) : NameMap α := ⟨m.entries.filter fun e => n != e.1⟩

/-- The map with a name mapped to a value, instead of what it was mapped to. -/
def insert (m : NameMap α) (n : ClassName) (a : α) : NameMap α := ⟨(n, a) :: (m.erase n).entries⟩

@[simp] theorem get?_empty (n : ClassName) : (empty : NameMap α).get? n = none := rfl

theorem get?_erase (m : NameMap α) (n k : ClassName) :
    (m.erase n).get? k = if k = n then none else m.get? k := by
  obtain ⟨entries⟩ := m
  simp only [erase, get?]
  induction entries with
  | nil => simp
  | cons e entries ih =>
    obtain ⟨name, a⟩ := e
    by_cases h : n = name
    · subst h
      simp only [List.filter_cons, bne_self_eq_false, Bool.false_eq_true, if_false, ih]
      by_cases hk : k = n
      · simp [hk]
      · simp [hk, List.lookup_cons, beq_false_of_ne hk]
    · simp only [List.filter_cons, bne_iff_ne, ne_eq, h, not_false_eq_true, if_true,
        List.lookup_cons, ih]
      by_cases hk : k = n
      · subst hk; simp [beq_false_of_ne h]
      · simp [hk]

theorem get?_insert (m : NameMap α) (n k : ClassName) (a : α) :
    (m.insert n a).get? k = if k = n then some a else m.get? k := by
  have h := get?_erase m n k
  simp only [get?] at h ⊢
  simp only [insert, List.lookup_cons]
  by_cases hk : k = n
  · simp [hk]
  · simp [hk, h, beq_false_of_ne hk]

end NameMap

end ClassStamp
