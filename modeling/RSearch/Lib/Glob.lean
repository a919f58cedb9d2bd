import Mathlib

/-!
# Patterns with a wildcard

A pattern is a word in which one letter, the star, stands for any run of letters.  `Covers` says which
words a pattern covers, letter by letter; a matcher that cuts the pattern at its stars is compared with
it by two rules.
-/

namespace Glob

open List

variable {α : Type*} {star : α}

/-- **The words that a pattern covers.** -/
inductive Covers (star : α) : List α → List α → Prop
  | nil : Covers star [] []
  | letter {c : α} {p w : List α} : c ≠ star → Covers star p w → Covers star (c :: p) (c :: w)
  | skip {p w : List α} : Covers star p w → Covers star (star :: p) w
  | take {c : α} {p w : List α} : Covers star (star :: p) w → Covers star (star :: p) (c :: w)

variable {p w piece : List α}

theorem covers_star_iff : Covers star (star :: p) w ↔ ∃ rest, rest <:+ w ∧ Covers star p rest := by
  constructor
  · intro h
    generalize hq : star :: p = q at h
    induction h with
    | nil => cases hq
    | letter hne _ _ =>
      cases hq
      exact absurd rfl hne
    | skip h _ =>
      cases hq
      exact ⟨_, suffix_rfl, h⟩
    | take _ ih =>
      obtain ⟨rest, hrest, h⟩ := ih hq
      exact ⟨rest, hrest.trans (suffix_cons _ _), h⟩
  · rintro ⟨rest, ⟨skipped, rfl⟩, h⟩
    induction skipped with
    | nil => exact .skip h
    | cons c skipped ih => exact .take ih

theorem Covers.of_suffix {v : List α} (h : Covers star (star :: p) v) (hsuffix : v <:+ w) :
    Covers star (star :: p) w := by
  obtain ⟨rest, hrest, hcovers⟩ := covers_star_iff.mp h
  exact covers_star_iff.mpr ⟨rest, hrest.trans hsuffix, hcovers⟩

theorem covers_append_iff (h : star ∉ piece) :
    Covers star (piece ++ p) w ↔ ∃ rest, w = piece ++ rest ∧ Covers star p rest := by
  induction piece generalizing w with
  | nil => simp
  | cons c piece ih =>
    obtain ⟨hc, hpiece⟩ := ne_and_not_mem_of_not_mem_cons h
    constructor
    · intro hcovers
      cases hcovers with
      | letter _ hrest =>
        obtain ⟨rest, rfl, htail⟩ := (ih hpiece).mp hrest
        exact ⟨rest, rfl, htail⟩
      | skip | take => exact absurd rfl hc
    · rintro ⟨rest, rfl, hrest⟩
      exact .letter (Ne.symm hc) ((ih hpiece).mpr ⟨rest, rfl, hrest⟩)

theorem covers_nil_iff : Covers star [] w ↔ w = [] := by
  constructor
  · rintro ⟨⟩
    rfl
  · rintro rfl
    exact .nil

theorem covers_literal_iff (h : star ∉ p) : Covers star p w ↔ w = p := by
  rw [← append_nil p, covers_append_iff h]
  simp [covers_nil_iff]

theorem covers_star_literal_iff {last : List α} (h : star ∉ last) :
    Covers star (star :: last) w ↔ last <:+ w := by
  simp [covers_star_iff, covers_literal_iff h]

theorem covers_star_append_iff (h : star ∉ piece) :
    Covers star (star :: (piece ++ p)) w ↔
      ∃ skipped rest, w = skipped ++ (piece ++ rest) ∧ Covers star p rest := by
  simp only [covers_star_iff, covers_append_iff h]
  constructor
  · rintro ⟨-, ⟨skipped, rfl⟩, rest, rfl, hrest⟩
    exact ⟨skipped, rest, rfl, hrest⟩
  · rintro ⟨skipped, rest, rfl, hrest⟩
    exact ⟨_, suffix_append _ _, rest, rfl, hrest⟩

theorem covers_self (p : List α) : Covers star p p := by
  classical
  induction p with
  | nil => exact .nil
  | cons c p ih =>
    by_cases hc : c = star
    · subst hc
      exact .take (.skip ih)
    · exact .letter hc ih

theorem Covers.sum_le {weight : α → ℕ} (hstar : weight star = 0) (h : Covers star p w) :
    (p.map weight).sum ≤ (w.map weight).sum := by
  induction h with
  | nil => exact le_rfl
  | letter _ _ ih =>
    simp only [map_cons, sum_cons]
    omega
  | skip _ ih =>
    simp only [map_cons, sum_cons, hstar]
    omega
  | take _ ih =>
    simp only [map_cons, sum_cons, hstar] at ih ⊢
    omega

theorem notMem_of_mem_splitOn [DecidableEq α] {sep : α} (xs : List α) :
    ∀ part ∈ xs.splitOn sep, sep ∉ part := by
  induction xs with
  | nil => simp
  | cons x xs ih =>
    intro part hpart
    rw [List.splitOn, splitOnP_cons_eq_if_modifyHead] at hpart
    split_ifs at hpart with hx
    · rcases mem_cons.mp hpart with rfl | hpart
      · exact not_mem_nil
      · exact ih part hpart
    · cases hsplit : List.splitOnP (· == sep) xs with
      | nil => exact absurd hsplit (splitOnP_ne_nil _ _)
      | cons first rest =>
        rw [hsplit, modifyHead_cons] at hpart
        have hmem : ∀ part ∈ first :: rest, sep ∉ part := hsplit ▸ ih
        rcases mem_cons.mp hpart with rfl | hpart
        · have hne : sep ≠ x := fun h => hx (by simp [h])
          simp [hne, hmem first mem_cons_self]
        · exact hmem part (mem_cons_of_mem _ hpart)

end Glob
