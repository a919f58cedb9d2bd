import RSearch.Visibility.Cluster

/-!
# Tombstone lists read from the metastore

The control leader and the search node follow the tombstone table the same way: by pages, from the
last sequence they have.  What such a list guarantees does not depend on who reads it.
-/

namespace RSearch.Visibility

open Control Store Feed

abbrev Store.table (s : Store) (streamId : ℤ) : List Row :=
  s.tombstones.filter fun row => row.streamId == streamId

theorem Store.mem_table {s : Store} {streamId : ℤ} {row : Row} :
    row ∈ s.table streamId ↔ row ∈ s.tombstones ∧ row.streamId = streamId := by
  rw [List.mem_filter, beq_iff_eq]

structure ListOk (s : Store) (streamId : ℤ) (list : List Row) : Prop where
  sorted : Feed.Sorted seqOf list
  mem : ∀ row ∈ list, row ∈ s.committed ∧ row.streamId = streamId
  caught : Feed.Caught seqOf (s.table streamId) list

structure ListDone (s : Store) (streamId : ℤ) (list : List Row) : Prop extends
    ListOk s streamId list where
  complete : ∀ row ∈ s.committed, row.streamId = streamId → row.seq ≤ Feed.last seqOf list →
    Covered list row.streamId row.docId row.beforeSeq ∨
      Covered s.removed row.streamId row.docId row.beforeSeq

namespace ListOk

variable {s s' : Store} {streamId : ℤ} {list : List Row}

theorem nil (h : s.Ok) (streamId : ℤ) : ListOk s streamId [] where
  sorted := List.Pairwise.nil
  mem := fun _ hrow => by cases hrow
  caught := caught_nil fun row hrow => (h.seq_mem row (h.table_sub (mem_table.mp hrow).1)).1

theorem last_nonneg (hl : ListOk s streamId list) (h : s.Ok) : 0 ≤ last seqOf list := by
  by_cases hnil : list = []
  · rw [hnil, last_nil]
  · obtain ⟨row, hrow, hlast⟩ := exists_last seqOf hnil
    rw [← hlast]
    exact (h.seq_mem row (hl.mem row hrow).1).1.le

theorem last_lt (hl : ListOk s streamId list) (h : s.Ok) : last seqOf list < s.nextSeq := by
  by_cases hnil : list = []
  · rw [hnil, last_nil]
    exact h.pos
  · obtain ⟨row, hrow, hlast⟩ := exists_last seqOf hnil
    rw [← hlast]
    exact (h.seq_mem row (hl.mem row hrow).1).2

theorem later (hl : ListOk s streamId list) (h : s.Ok) (hlater : s.Later s') :
    ListOk s' streamId list where
  sorted := hl.sorted
  mem := fun row hrow => ⟨hlater.committed_sub (hl.mem row hrow).1, (hl.mem row hrow).2⟩
  caught := hl.caught.of_table fun row hrow => by
    obtain ⟨htable, hstream⟩ := mem_table.mp hrow
    rcases hlater.table row htable with hold | hnew
    · exact .inl (mem_table.mpr ⟨hold, hstream⟩)
    · exact .inr ((hl.last_lt h).trans_le hnew)

theorem page (hl : ListOk s streamId list) (h : s.Ok) (limit : ℕ) :
    ListOk s streamId (list ++ s.tombstonesSince streamId (last seqOf list) limit) where
  sorted := Sorted.append_since (h.sorted.filter _) hl.sorted limit
  mem := fun row hrow => by
    rcases List.mem_append.mp hrow with hold | hnew
    · exact hl.mem row hold
    · obtain ⟨htable, hstream⟩ := mem_table.mp (mem_of_mem_since hnew).1
      exact ⟨h.table_sub htable, hstream⟩
  caught := hl.caught.append_since (h.sorted.filter _) limit

theorem covered_of_short (hl : ListOk s streamId list) {limit : ℕ}
    (hshort : (s.tombstonesSince streamId (last seqOf list) limit).length < limit) {docId : String}
    {beforeSeq : ℤ} (hcov : Covered s.tombstones streamId docId beforeSeq) :
    Covered (list ++ s.tombstonesSince streamId (last seqOf list) limit) streamId docId
      beforeSeq := by
  obtain ⟨row, hrow, hstream, hcov⟩ := hcov
  have hmem : row ∈ s.table streamId := mem_table.mpr ⟨hrow, hstream⟩
  exact ⟨row, hl.caught.subset_append_since hshort hmem, hstream, hcov⟩

end ListOk

namespace ListDone

variable {s s' : Store} {streamId : ℤ} {list : List Row}

theorem nil (h : s.Ok) (streamId : ℤ) : ListDone s streamId [] where
  toListOk := .nil h streamId
  complete := fun row hrow _ hle => absurd hle (h.seq_mem row hrow).1.not_ge

theorem of_short (hl : ListOk s streamId list) (h : s.Ok) {limit : ℕ}
    (hshort : (s.tombstonesSince streamId (last seqOf list) limit).length < limit) :
    ListDone s streamId (list ++ s.tombstonesSince streamId (last seqOf list) limit) where
  toListOk := hl.page h limit
  complete := fun row hrow hstream _ => by
    have hcov := h.covered_committed hrow
    rw [hstream] at hcov ⊢
    exact hcov.imp_left (hl.covered_of_short hshort)

theorem later (hl : ListDone s streamId list) (h : s.Ok) (hlater : s.Later s') :
    ListDone s' streamId list where
  toListOk := hl.toListOk.later h hlater
  complete := fun row hrow hstream hle => by
    have hold := hlater.mem_of_seq_lt hrow (hle.trans_lt (hl.last_lt h))
    exact (hl.complete row hold hstream hle).imp_right (Covered.mono hlater.removed)

end ListDone

variable {list : List Row}

theorem sorted_toTombstone (h : Sorted seqOf list) :
    Sorted Tombstone.seq (list.map Row.toTombstone) :=
  List.pairwise_map.mpr h

@[simp] theorem last_toTombstone (list : List Row) :
    last Tombstone.seq (list.map Row.toTombstone) = last seqOf list := by
  rw [last, last, List.getLast?_map, Option.map_map]
  rfl

theorem mem_applyRows {docs : List Doc} {set : ExclusionSet} (hsorted : Feed.Sorted seqOf list) {d : Doc} :
    d ∈ (applyTombstones docs set (list.map Row.toTombstone)).excluded ↔ d ∈ set.excluded ∨
        d ∈ docs ∧ ∃ row ∈ list, set.appliedThrough < row.seq ∧ below row.toTombstone d = true := by
  rw [mem_applyTombstones (sorted_toTombstone hsorted)]
  simp only [List.mem_map, exists_exists_and_eq_and]

end RSearch.Visibility
