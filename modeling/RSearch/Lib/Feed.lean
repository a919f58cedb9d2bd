import Mathlib

/-!
# Following a table by its sequence column

A table where a new or changed row gets a *new* number, above every one handed out so far, can be
followed by readers that remember only the number of the last row they read: ask for the rows above it,
by pages, and append.  Rows may disappear at any time.
-/

namespace Feed

open List

universe u

variable {R : Type u} (seq : R → ℤ)

def last (rows : List R) : ℤ := (rows.getLast?.map seq).getD 0

/-- One page: the first `limit` rows above `after`, for a table listed in sequence order. -/
def since (table : List R) (after : ℤ) (limit : ℕ) : List R :=
  (table.filter fun row => decide (after < seq row)).take limit

def Sorted (rows : List R) : Prop := rows.Pairwise fun a b => seq a < seq b

def Caught (table rows : List R) : Prop := ∀ row ∈ table, seq row ≤ last seq rows → row ∈ rows

@[simp] theorem last_nil : last seq ([] : List R) = 0 := rfl

@[simp] theorem last_concat (rows : List R) (row : R) : last seq (rows ++ [row]) = seq row := by
  simp [last]

variable {seq}

theorem last_append_of_ne_nil (rows : List R) {page : List R} (hne : page ≠ []) :
    last seq (rows ++ page) = last seq page := by
  obtain ⟨init, row, rfl⟩ := eq_nil_or_concat page |>.resolve_left hne
  rw [concat_eq_append, ← append_assoc, last_concat, last_concat]

variable {rows table : List R} {row : R} {after : ℤ} {limit : ℕ}

theorem exists_last (seq : R → ℤ) (hne : rows ≠ []) : ∃ row ∈ rows, seq row = last seq rows := by
  obtain ⟨init, row, rfl⟩ := eq_nil_or_concat rows |>.resolve_left hne
  refine ⟨row, by simp, ?_⟩
  rw [concat_eq_append, last_concat]

theorem Sorted.le_last (h : Sorted seq rows) (hrow : row ∈ rows) : seq row ≤ last seq rows := by
  rcases eq_nil_or_concat rows with rfl | ⟨init, row', rfl⟩
  · cases hrow
  · rw [concat_eq_append] at h hrow ⊢
    rw [last_concat]
    rcases mem_append.mp hrow with hmem | hmem
    · exact ((pairwise_append.mp h).2.2 row hmem row' (by simp)).le
    · rw [mem_singleton.mp hmem]

theorem Sorted.filter (h : Sorted seq rows) (p : R → Bool) : Sorted seq (rows.filter p) :=
  List.Pairwise.filter p h

theorem Sorted.concat (h : Sorted seq rows) (hlt : ∀ r ∈ rows, seq r < seq row) :
    Sorted seq (rows ++ [row]) := by
  refine pairwise_append.mpr ⟨h, pairwise_singleton _ _, fun r hr r' hr' => ?_⟩
  rw [mem_singleton.mp hr']
  exact hlt r hr

theorem mem_of_mem_since (h : row ∈ since seq table after limit) : row ∈ table ∧ after < seq row := by
  obtain ⟨hmem, hlt⟩ := mem_filter.mp (mem_of_mem_take h)
  exact ⟨hmem, of_decide_eq_true hlt⟩

theorem Sorted.append_since (ht : Sorted seq table) (h : Sorted seq rows) (limit : ℕ) :
    Sorted seq (rows ++ since seq table (last seq rows) limit) := by
  refine pairwise_append.mpr ⟨h, (ht.filter _).sublist (take_sublist _ _), ?_⟩
  intro r hr r' hr'
  exact (h.le_last hr).trans_lt (mem_of_mem_since hr').2

theorem mem_since_of_le (ht : Sorted seq table) (hrow : row ∈ table) (hafter : after < seq row)
    (hne : since seq table after limit ≠ []) (hle : seq row ≤ last seq (since seq table after limit)) :
    row ∈ since seq table after limit := by
  have hmem : row ∈ table.filter fun row => decide (after < seq row) :=
    mem_filter.mpr ⟨hrow, decide_eq_true hafter⟩
  have hsorted : Sorted seq (table.filter fun row => decide (after < seq row)) := ht.filter _
  -- a row the page leaves out comes after every row of the page
  rw [← take_append_drop limit (table.filter _)] at hmem hsorted
  rcases mem_append.mp hmem with htake | hdrop
  · exact htake
  · obtain ⟨r, hr, hlast⟩ := exists_last seq hne
    exact absurd (hlast ▸ hle) ((pairwise_append.mp hsorted).2.2 r hr row hdrop).not_ge

theorem caught_nil (hpos : ∀ row ∈ table, 0 < seq row) : Caught seq table [] := by
  intro row hrow hle
  exact absurd hle (hpos row hrow).not_ge

theorem Caught.append_since (ht : Sorted seq table) (h : Caught seq table rows) (limit : ℕ) :
    Caught seq table (rows ++ since seq table (last seq rows) limit) := by
  intro row hrow hle
  by_cases hnil : since seq table (last seq rows) limit = []
  · rw [hnil, append_nil] at hle ⊢
    exact h row hrow hle
  · rw [last_append_of_ne_nil rows hnil] at hle
    rcases le_or_gt (seq row) (last seq rows) with hold | hnew
    · exact mem_append_left _ (h row hrow hold)
    · exact mem_append_right _ (mem_since_of_le ht hrow hnew hnil hle)

theorem Caught.subset_append_since (h : Caught seq table rows)
    (hshort : (since seq table (last seq rows) limit).length < limit) :
    table ⊆ rows ++ since seq table (last seq rows) limit := by
  intro row hrow
  rcases le_or_gt (seq row) (last seq rows) with hold | hnew
  · exact mem_append_left _ (h row hrow hold)
  · refine mem_append_right _ ?_
    -- a page shorter than the limit is the whole rest of the table
    have hall : (table.filter fun row => decide (last seq rows < seq row)).length ≤ limit := by
      by_contra hlong
      rw [since, length_take, min_eq_left (not_le.mp hlong).le] at hshort
      exact hshort.false
    rw [since, take_of_length_le hall]
    exact mem_filter.mpr ⟨hrow, decide_eq_true hnew⟩

theorem Caught.of_table {table' : List R} (h : Caught seq table rows)
    (hnew : ∀ row ∈ table', row ∈ table ∨ last seq rows < seq row) : Caught seq table' rows := by
  intro row hrow hle
  rcases hnew row hrow with hold | hlt
  · exact h row hold hle
  · exact absurd hle hlt.not_ge

end Feed
