import RSearch.Lib.TopK

/-!
# Orders that are given by a comparison

A comparison that is oriented and transitive gives a total and transitive relation, whose strict part is
"less" (`before_upTo_iff`).  Comparisons are built from others: turned round, taken of what a function
makes of the arguments, and clause by clause.
-/

namespace Compare

open Std OrientedCmp

universe u v

variable {α : Type u} {β : Type v}

def UpTo (cmp : α → α → Ordering) (a b : α) : Prop := (cmp a b).isLE = true

section UpTo

variable {cmp : α → α → Ordering}

instance : DecidableRel (UpTo cmp) := fun a b => inferInstanceAs (Decidable ((cmp a b).isLE = true))

instance [Std.OrientedCmp cmp] : Std.Total (UpTo cmp) where
  total a b := by
    by_cases h : (cmp a b).isLE = true
    · exact .inl h
    · have hlt : cmp b a = .lt := Std.OrientedCmp.lt_of_not_isLE h
      exact .inr (by rw [UpTo, hlt]; rfl)

instance [TransCmp cmp] : IsTrans α (UpTo cmp) := ⟨fun _ _ _ => TransCmp.isLE_trans⟩

theorem before_upTo_iff [OrientedCmp cmp] {a b : α} :
    TopK.Before (UpTo cmp) a b ↔ cmp a b = .lt := by
  constructor
  · exact lt_of_not_isLE
  · exact not_isLE_of_lt

theorem apart_upTo [OrientedCmp cmp] {l : List α} (h : l.Pairwise fun a b => cmp a b ≠ .eq) :
    TopK.Apart (UpTo cmp) l := by
  refine List.Pairwise.imp ?_ h
  rintro a b hne ⟨hab, hba⟩
  have hswap : cmp b a = (cmp a b).swap := eq_swap
  rw [UpTo, hswap] at hba
  unfold UpTo at hab
  cases hcmp : cmp a b with
  | eq => exact hne hcmp
  | lt =>
    rw [hcmp] at hba
    cases hba
  | gt =>
    rw [hcmp] at hab
    cases hab

end UpTo

theorem transCmp_comap (cmp : β → β → Ordering) [TransCmp cmp] (f : α → β) :
    TransCmp fun a b => cmp (f a) (f b) where
  eq_swap := eq_swap
  isLE_trans := TransCmp.isLE_trans

theorem transCmp_swap (cmp : α → α → Ordering) [TransCmp cmp] :
    TransCmp fun a b => (cmp a b).swap := by
  have hswap : (fun a b => (cmp a b).swap) = fun a b => cmp b a := by
    funext a b
    exact eq_swap.symm
  rw [hswap]
  exact TransCmp.opposite

/-! ### Clauses -/

theorem then_of_ne_eq {o o' : Ordering} (h : o ≠ .eq) : o.then o' = o := by
  cases o with
  | eq => exact absurd rfl h
  | lt | gt => rfl

/-- Lists compared clause by clause, entry by entry; a list that is too short goes on with `d`. -/
def clauses (d : α) : List (α → α → Ordering) → List α → List α → Ordering
  | [], _, _ => .eq
  | cmp :: cmps, as, bs => (cmp (as.headD d) (bs.headD d)).then (clauses d cmps as.tail bs.tail)

theorem transCmp_clauses (d : α) {cmps : List (α → α → Ordering)} (h : ∀ cmp ∈ cmps, TransCmp cmp) :
    TransCmp (clauses d cmps) := by
  induction cmps with
  | nil => exact { eq_swap := rfl, isLE_trans := fun _ _ => rfl }
  | cons cmp cmps ih =>
    obtain ⟨hcmp, htail⟩ := List.forall_mem_cons.mp h
    have hfirst := transCmp_comap cmp fun as : List α => as.headD d
    have := ih htail
    have hrest := transCmp_comap (clauses d cmps) List.tail
    exact inferInstanceAs (TransCmp (compareLex (fun as bs : List α => cmp (as.headD d) (bs.headD d))
      fun as bs : List α => clauses d cmps as.tail bs.tail))

end Compare
