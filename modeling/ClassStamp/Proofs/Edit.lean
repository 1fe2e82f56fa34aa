import Mathlib.Order.Defs.Unbundled
import Mathlib.Data.List.Basic

/-!
# What an edit leaves behind

An edit that fails keeps what it did before, so a statement about an edit is a
statement about the state it leaves, whether it went well or not.

* `leaves` is that state;
* `Keeps` says that it is related to the state the edit began with, and goes
  from the parts of an edit to the whole.
-/

namespace ClassStamp

variable {ε σ α β : Type}

/-- The state that an edit leaves, whether it went well or not. -/
def leaves (edit : EStateM ε σ α) (s : σ) : σ :=
  match edit s with
  | .ok _ t | .error _ t => t

theorem leaves_of_ok {edit : EStateM ε σ α} {s t : σ} {a : α} (h : edit s = .ok a t) :
    leaves edit s = t := by
  rw [leaves, h]

theorem leaves_of_error {edit : EStateM ε σ α} {s t : σ} {e : ε} (h : edit s = .error e t) :
    leaves edit s = t := by
  rw [leaves, h]

/-- Whether the edit goes well. -/
def succeeds (edit : EStateM ε σ α) (s : σ) : Bool :=
  match edit s with
  | .ok _ _ => true
  | .error _ _ => false

theorem eq_ok_of_succeeds {edit : EStateM ε σ Unit} {s : σ} (h : succeeds edit s = true) :
    edit s = .ok () (leaves edit s) := by
  unfold succeeds at h
  split at h
  · rename_i he
    rw [he, leaves_of_ok he]
  · cases h

theorem estate_bind_eq_ok {edit : EStateM ε σ α} {next : α → EStateM ε σ β} {s t : σ} {b : β}
    (h : (edit >>= next) s = .ok b t) : ∃ a u, edit s = .ok a u ∧ next a u = .ok b t := by
  simp only [bind, EStateM.bind] at h
  split at h
  · exact ⟨_, _, by assumption, h⟩
  · cases h

theorem get_eq (s : σ) : (get : EStateM ε σ σ) s = .ok s s := rfl

/-- Whatever becomes of the edit, the state it leaves is related to the one it
began with. -/
def Keeps (R : σ → σ → Prop) (edit : EStateM ε σ α) : Prop := ∀ s, R s (leaves edit s)

namespace Keeps

variable {R : σ → σ → Prop}

theorem ok {edit : EStateM ε σ α} (h : Keeps R edit) {s t : σ} {a : α} (he : edit s = .ok a t) :
    R s t := by
  have := h s
  rwa [leaves_of_ok he] at this

theorem error {edit : EStateM ε σ α} (h : Keeps R edit) {s t : σ} {e : ε}
    (he : edit s = .error e t) : R s t := by
  have := h s
  rwa [leaves_of_error he] at this

variable [IsPreorder σ R]

theorem pure (a : α) : Keeps R (pure a : EStateM ε σ α) := refl_of R

theorem bind {edit : EStateM ε σ α} {next : α → EStateM ε σ β} (h : Keeps R edit)
    (hnext : ∀ a, Keeps R (next a)) : Keeps R (edit >>= next) := by
  intro s
  have hs := h s
  unfold leaves at hs ⊢
  simp only [Bind.bind, EStateM.bind]
  cases he : edit s with
  | error e t => rw [he] at hs; exact hs
  | ok a t =>
    rw [he] at hs
    exact trans_of R hs (hnext a t)

theorem mapM {f : α → EStateM ε σ β} {xs : List α} (h : ∀ a ∈ xs, Keeps R (f a)) :
    Keeps R (xs.mapM f) := by
  induction xs with
  | nil => exact .pure []
  | cons x xs ih =>
    rw [List.mapM_cons]
    exact .bind (h x List.mem_cons_self) fun _ =>
      .bind (ih fun a ha => h a (List.mem_cons_of_mem x ha)) fun _ => .pure _

theorem forM {f : α → EStateM ε σ PUnit} {xs : List α} (h : ∀ a ∈ xs, Keeps R (f a)) :
    Keeps R (xs.forM f) := by
  induction xs with
  | nil => exact .pure _
  | cons x xs ih =>
    exact .bind (h x List.mem_cons_self) fun _ => ih fun a ha => h a (List.mem_cons_of_mem x ha)

end Keeps

end ClassStamp
