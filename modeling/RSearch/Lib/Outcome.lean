import Mathlib

/-!
# Results that may be errors

What the outcome of a computation in `Except` says of its parts: a sequence that returns has every step
return, and a mapped result fails exactly with the original's error.
-/

namespace Except

universe u v w

variable {ε : Type u} {α : Type v} {β : Type w}

variable {x : Except ε α} {f : α → β} {l : List α}

theorem map_eq_ok_iff {b : β} : x.map f = .ok b ↔ ∃ a, x = .ok a ∧ f a = b := by
  cases x <;> simp [Except.map]

theorem map_eq_error_iff {e : ε} : x.map f = .error e ↔ x = .error e := by
  cases x <;> simp [Except.map]

theorem bind_eq_ok_iff {α β : Type v} {x : Except ε α} {f : α → Except ε β} {b : β} :
    (x >>= f) = .ok b ↔ ∃ a, x = .ok a ∧ f a = .ok b := by
  cases x <;> simp [bind, Except.bind]

alias ⟨of_bind, _⟩ := bind_eq_ok_iff

theorem ok_bind {α β : Type v} (a : α) (f : α → Except ε β) : ((.ok a : Except ε α) >>= f) = f a := by
  simp [bind, Except.bind]

/-- What holds of a result is decided by computing it. -/
instance decidableExistsEqOk {p : α → Prop} [DecidablePred p] : Decidable (∃ a, x = .ok a ∧ p a) :=
  match x with
  | .error _ => .isFalse (by simp)
  | .ok a => decidable_of_iff (p a) (by simp)

theorem mapM_eq_ok {β : Type v} {f : α → Except ε β} {g : α → β} (h : ∀ a ∈ l, f a = .ok (g a)) :
    l.mapM f = .ok (l.map g) := by
  induction l with
  | nil => rfl
  | cons a l ih =>
    obtain ⟨ha, htail⟩ := List.forall_mem_cons.mp h
    rw [List.mapM_cons, ha, ih htail]
    rfl

theorem exists_eq_ok_of_mapM {β : Type v} {f : α → Except ε β} {bs : List β} (h : l.mapM f = .ok bs)
    {a : α} (ha : a ∈ l) : ∃ b, f a = .ok b := by
  induction l generalizing bs with
  | nil => cases ha
  | cons a' l ih =>
    rw [List.mapM_cons] at h
    obtain ⟨b, hb, h⟩ := bind_eq_ok_iff.mp h
    obtain ⟨bs', hbs, _⟩ := bind_eq_ok_iff.mp h
    rcases List.mem_cons.mp ha with rfl | htail
    · exact ⟨b, hb⟩
    · exact ih hbs htail

end Except
