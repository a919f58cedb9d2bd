import Mathlib

/-!
# Machine arithmetic that must not overflow

An operation is written on the exact integers, and its result is *checked* against the range of the
machine type.  A computation in `Checked` that returns has therefore computed exactly.
-/

inductive Overflow where
  | overflow
  deriving DecidableEq

/-- A computation on machine integers: it returns, or one of its operations overflows. -/
abbrev Checked (α : Type) := Except Overflow α

namespace Checked

def u64 (n : ℤ) : Checked ℕ :=
  if 0 ≤ n ∧ n ≤ 18446744073709551615 then .ok n.toNat else .error .overflow

theorem u64_eq_ok {n : ℤ} {m : ℕ} (h : n = m) (hm : m < 2 ^ 64) : u64 n = .ok m := by
  subst h
  rw [u64, if_pos ⟨by omega, by omega⟩]
  rfl

end Checked
