import RSearch.Lib.Bytes

/-!
# Percent decoding

An escape is a percent sign and two hexadecimal digits, and stands for one byte.  Decoding replaces the
escapes from left to right and leaves everything else, a percent sign without two digits after it
included, as it is.
-/

namespace Bytes

open List

def hexDigit (b : UInt8) : Option UInt8 :=
  if 0x30 ≤ b ∧ b ≤ 0x39 then some (b - 0x30)
  else if 0x61 ≤ b ∧ b ≤ 0x66 then some (b - 0x61 + 10)
  else if 0x41 ≤ b ∧ b ≤ 0x46 then some (b - 0x41 + 10)
  else none

def escape (b h l : UInt8) : Option UInt8 :=
  if b = 0x25 then (hexDigit h).bind fun h => (hexDigit l).map fun l => h * 16 + l else none

def percentDecode : Bytes → Bytes
  | b :: h :: l :: rest =>
    match escape b h l with
    | some c => c :: percentDecode rest
    | none => b :: percentDecode (h :: l :: rest)
  | bs => bs

def HasEscape : Bytes → Prop
  | b :: h :: l :: rest => (escape b h l).isSome = true ∨ HasEscape (h :: l :: rest)
  | _ => False

theorem of_escape {b h l c : UInt8} (heq : escape b h l = some c) :
    b = 0x25 ∧ (hexDigit h).isSome = true ∧ (hexDigit l).isSome = true := by
  unfold escape at heq
  split_ifs at heq with hb
  obtain ⟨x, hx, heq⟩ := Option.bind_eq_some_iff.mp heq
  obtain ⟨y, hy, -⟩ := Option.map_eq_some_iff.mp heq
  simp [hb, hx, hy]

theorem percentDecode_eq_self {bs : Bytes} (h : ¬HasEscape bs) : percentDecode bs = bs := by
  fun_induction percentDecode bs with
  | case1 b x y rest c hescape ih => exact absurd (.inl (by rw [hescape]; rfl)) h
  | case2 b x y rest hescape ih => rw [ih fun hrest => h (.inr hrest)]
  | case3 bs hshort => rfl

section Count

variable {q : UInt8 → Bool} (hpercent : q 0x25 = true)
  (hdigit : ∀ b, (hexDigit b).isSome = true → q b = true)

include hpercent hdigit

theorem countP_percentDecode_le (bs : Bytes) : (percentDecode bs).countP q ≤ bs.countP q := by
  fun_induction percentDecode bs with
  | case1 b x y rest c hescape ih =>
    obtain ⟨rfl, hx, hy⟩ := of_escape hescape
    simp only [countP_cons, hpercent, hdigit x hx, hdigit y hy, if_true]
    split_ifs <;> omega
  | case2 b x y rest hescape ih =>
    rw [countP_cons, countP_cons]
    omega
  | case3 bs hshort => exact le_rfl

theorem countP_percentDecode_lt {bs : Bytes} (h : HasEscape bs) :
    (percentDecode bs).countP q < bs.countP q := by
  fun_induction percentDecode bs with
  | case1 b x y rest c hescape ih =>
    obtain ⟨rfl, hx, hy⟩ := of_escape hescape
    have hrest := countP_percentDecode_le hpercent hdigit rest
    simp only [countP_cons, hpercent, hdigit x hx, hdigit y hy, if_true]
    split_ifs <;> omega
  | case2 b x y rest hescape ih =>
    have hrest : HasEscape (x :: y :: rest) := by
      refine Or.resolve_left h ?_
      rw [hescape]
      exact Bool.false_ne_true
    have := ih hrest
    rw [countP_cons, countP_cons]
    omega
  | case3 bs hshort =>
    unfold HasEscape at h
    split at h
    · exact absurd rfl (hshort _ _ _ _)
    · exact h.elim

end Count

end Bytes
