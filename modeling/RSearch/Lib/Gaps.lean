import Mathlib

/-!
# The elements of a list and the gaps between them

A list of elements of a linear order cuts the order into them and gaps. `slot l a` numbers them from
below: a gap has an even number and an element an odd one, so an element that is not in the list still
has its place among those that are.
-/

namespace Gaps

open List

universe u

variable {α : Type u} [LinearOrder α]

def slot (l : List α) (a : α) : ℕ := (l.countP fun t => decide (t < a)) + l.countP fun t => decide (t ≤ a)

def SameGap (l : List α) (a b : α) : Prop := ∀ t ∈ l, t < min a b ∨ max a b < t

instance (l : List α) (a b : α) : Decidable (SameGap l a b) :=
  inferInstanceAs (Decidable (∀ t ∈ l, _))

variable {l : List α} {a b : α}

theorem SameGap.symm (h : SameGap l a b) : SameGap l b a := by
  intro t ht
  rw [min_comm, max_comm]
  exact h t ht

theorem countP_lt_le_countP_le (l : List α) (a : α) :
    (l.countP fun t => decide (t < a)) ≤ l.countP fun t => decide (t ≤ a) :=
  countP_mono_left fun _ _ h => decide_eq_true (of_decide_eq_true h).le

theorem countP_le_le_countP_lt (l : List α) (hab : a < b) :
    (l.countP fun t => decide (t ≤ a)) ≤ l.countP fun t => decide (t < b) :=
  countP_mono_left fun _ _ h => decide_eq_true ((of_decide_eq_true h).trans_lt hab)

theorem countP_eq_iff_sameGap (hab : a < b) :
    (l.countP fun t => decide (t < a)) = (l.countP fun t => decide (t ≤ b)) ↔ SameGap l a b := by
  induction l with
  | nil => simp [SameGap]
  | cons t l ih =>
    have hle : (l.countP fun t => decide (t < a)) ≤ l.countP fun t => decide (t ≤ b) :=
      countP_mono_left fun _ _ h => decide_eq_true ((of_decide_eq_true h).trans hab).le
    rw [SameGap, forall_mem_cons, ← SameGap, ← ih, min_eq_left hab.le, max_eq_right hab.le,
      countP_cons, countP_cons]
    by_cases hta : t < a
    · have htb : t ≤ b := (hta.trans hab).le
      simp [hta, htb]
    · by_cases htb : t ≤ b
      · simp only [hta, htb, decide_false, decide_true, if_true, not_lt.mpr htb]
        simp
        omega
      · simp [hta, htb, not_le.mp htb]

theorem slot_lt_slot (hab : a < b) (h : ¬ SameGap l a b) : slot l a < slot l b := by
  have ha := countP_lt_le_countP_le l a
  have hacross := countP_le_le_countP_lt l hab
  have hb := countP_lt_le_countP_le l b
  have hne := (countP_eq_iff_sameGap hab).not.mpr h
  unfold slot
  omega

theorem slot_eq_slot (hab : a < b) (h : SameGap l a b) : slot l a = slot l b := by
  have ha := countP_lt_le_countP_le l a
  have hacross := countP_le_le_countP_lt l hab
  have hb := countP_lt_le_countP_le l b
  have heq := (countP_eq_iff_sameGap hab).mpr h
  unfold slot
  omega

theorem compare_slot (h : a ≠ b → ¬ SameGap l a b) : compare (slot l a) (slot l b) = compare a b := by
  rcases lt_trichotomy a b with hab | rfl | hab
  · rw [compare_lt_iff_lt.mpr hab, compare_lt_iff_lt]
    exact slot_lt_slot hab (h hab.ne)
  · exact (compare_eq_iff_eq.mpr rfl).trans (compare_eq_iff_eq.mpr rfl).symm
  · rw [compare_gt_iff_gt.mpr hab, compare_gt_iff_gt]
    exact slot_lt_slot hab fun hsame => h hab.ne' hsame.symm

theorem slot_eq_slot_of_sameGap (h : SameGap l a b) : slot l a = slot l b := by
  rcases lt_trichotomy a b with hab | rfl | hab
  · exact slot_eq_slot hab h
  · rfl
  · exact (slot_eq_slot hab h.symm).symm

theorem slot_le (l : List α) (a : α) : slot l a ≤ 2 * l.length := by
  have hlt : (l.countP fun t => decide (t < a)) ≤ l.length := countP_le_length
  have hle : (l.countP fun t => decide (t ≤ a)) ≤ l.length := countP_le_length
  unfold slot
  omega

/-! ### Sorted lists -/

theorem countP_lt_getElem (hl : l.Pairwise (· < ·)) {i : ℕ} (hi : i < l.length) :
    (l.countP fun t => decide (t < l[i])) = i := by
  induction l generalizing i with
  | nil => cases hi
  | cons t l ih =>
    obtain ⟨ht, htail⟩ := pairwise_cons.mp hl
    cases i with
    | zero =>
      refine countP_eq_zero.mpr fun s hs => ?_
      rw [decide_eq_true_iff, getElem_cons_zero]
      rcases mem_cons.mp hs with rfl | hs
      · exact lt_irrefl _
      · exact (ht s hs).not_gt
    | succ i =>
      have hi' : i < l.length := by simpa using hi
      rw [countP_cons, getElem_cons_succ, ih htail hi']
      simp [ht _ (getElem_mem hi')]

theorem countP_le_eq (a : α) : (l.countP fun t => decide (t ≤ a)) =
    (l.countP fun t => decide (t < a)) + l.count a := by
  induction l with
  | nil => rfl
  | cons t l ih =>
    rw [countP_cons, countP_cons, count_cons, ih]
    rcases lt_trichotomy t a with h | rfl | h
    · simp [h, h.le, h.ne]
      omega
    · simp
      omega
    · simp [h.not_gt, h.not_ge, h.ne']

theorem slot_of_notMem (h : a ∉ l) : slot l a = 2 * l.countP fun t => decide (t < a) := by
  rw [slot, countP_le_eq, count_eq_zero_of_not_mem h]
  omega

theorem slot_of_mem (hl : l.Pairwise (· < ·)) (h : a ∈ l) :
    slot l a = 2 * (l.countP fun t => decide (t < a)) + 1 := by
  have hnodup : l.Nodup := hl.imp fun hab => hab.ne
  rw [slot, countP_le_eq, count_eq_one_of_mem hnodup h]
  omega

theorem slot_getElem (hl : l.Pairwise (· < ·)) {i : ℕ} (hi : i < l.length) :
    slot l l[i] = 2 * i + 1 := by
  rw [slot_of_mem hl (getElem_mem hi), countP_lt_getElem hl hi]

theorem getElem?_countP_of_mem (hl : l.Pairwise (· < ·)) (h : a ∈ l) :
    l[l.countP fun t => decide (t < a)]? = some a := by
  obtain ⟨i, hi, rfl⟩ := getElem_of_mem h
  rw [countP_lt_getElem hl hi]
  exact getElem?_eq_getElem hi

end Gaps
