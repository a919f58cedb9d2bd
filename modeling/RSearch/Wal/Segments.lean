import RSearch.Wal.Record

/-!
# Segment bookkeeping: when a segment file may go

The log keeps, for every live segment, the number of its unconfirmed records and whether it is sealed.
`confirm` decrements the count, stopping at zero; a sealed segment whose count is zero is dropped from
the map and its file is unlinked.
-/

namespace RSearch.Wal

open List

structure SegmentState where
  outstanding : ℕ
  sealed : Bool
deriving DecidableEq

abbrev Segments := Std.ExtTreeMap ℕ SegmentState

namespace Segments

def bump (segs : Segments) (seq : ℕ) : Option Segments :=
  match segs[seq]? with
  | some state => some (segs.insert seq { state with outstanding := state.outstanding + 1 })
  | none => none

def sealSegment (segs : Segments) (seq : ℕ) : Segments :=
  segs.modify seq fun state => { state with sealed := true }

def track (segs : Segments) (seq : ℕ) : Segments :=
  segs.insert seq ⟨0, false⟩

def confirmOne (segs : Segments) (pos : WalPos) : Segments :=
  segs.modify pos.segment fun state => { state with outstanding := state.outstanding - 1 }

def exhausted (state : SegmentState) : Bool :=
  state.sealed && state.outstanding == 0

/-- Drop the exhausted segments from tracking and return their numbers, for the caller to unlink. -/
def collectConfirmed (segs : Segments) : List ℕ × Segments :=
  ((segs.toList.filter fun entry => exhausted entry.2).map Prod.fst,
    segs.filter fun _ state => !exhausted state)

def confirm (segs : Segments) (positions : List WalPos) : List ℕ × Segments :=
  collectConfirmed (positions.foldl confirmOne segs)

variable {segs segs' : Segments} {seq g : ℕ}

theorem getElem?_sealSegment (segs : Segments) (seq g : ℕ) :
    (segs.sealSegment seq)[g]?
      = if seq = g then segs[g]?.map fun state => { state with sealed := true } else segs[g]? := by
  grind [sealSegment]

theorem getElem?_track (segs : Segments) (seq g : ℕ) :
    (segs.track seq)[g]? = if seq = g then some ⟨0, false⟩ else segs[g]? := by
  grind [track]

theorem getElem?_confirmOne (segs : Segments) (pos : WalPos) (g : ℕ) :
    (segs.confirmOne pos)[g]? = if pos.segment = g then
          segs[g]?.map fun state => { state with outstanding := state.outstanding - 1 }
        else segs[g]? := by
  grind [confirmOne]

variable {positions : List WalPos}

theorem getElem?_foldl_confirmOne {g : ℕ} (h : ∀ pos ∈ positions, pos.segment ≠ g) (segs : Segments) :
    (positions.foldl confirmOne segs)[g]? = segs[g]? := by
  induction positions generalizing segs with
  | nil => rfl
  | cons pos positions ih =>
    grind [getElem?_confirmOne]

theorem foldl_confirmOne_eq_none {g : ℕ} {segs : Segments} (h : segs[g]? = none) :
    (positions.foldl confirmOne segs)[g]? = none := by
  induction positions generalizing segs with
  | nil => exact h
  | cons pos positions ih =>
    refine ih ?_
    rw [getElem?_confirmOne, h]
    split_ifs <;> rfl

theorem bump_eq_some (h : segs.bump seq = some segs') :
    ∃ state, segs[seq]? = some state ∧
      ∀ g, segs'[g]? = if seq = g then some ⟨state.outstanding + 1, state.sealed⟩
        else segs[g]? := by
  grind [bump]

theorem mem_collectConfirmed (segs : Segments) (g : ℕ) :
    g ∈ segs.collectConfirmed.1 ↔ ∃ state, segs[g]? = some state ∧ exhausted state = true := by
  simp only [collectConfirmed, mem_map, mem_filter, Prod.exists]
  grind

theorem getElem?_collectConfirmed (segs : Segments) (g : ℕ) :
    segs.collectConfirmed.2[g]? = segs[g]?.filter fun state => !exhausted state := by
  grind [collectConfirmed]

theorem getElem?_collectConfirmed_of_pos {state : SegmentState} (h : segs[g]? = some state)
    (hpos : 0 < state.outstanding) : segs.collectConfirmed.2[g]? = some state := by
  grind [getElem?_collectConfirmed, exhausted]

theorem getElem?_of_mem_collectConfirmed (h : g ∈ segs.collectConfirmed.1) :
    segs.collectConfirmed.2[g]? = none := by
  grind [getElem?_collectConfirmed, mem_collectConfirmed]

end Segments

open Segments

/-- The count of every segment is at least the number of its entries in `A`, the segments of the
records that are not confirmed. -/
def Covers (segs : Segments) (A : List ℕ) : Prop :=
  ∀ g ∈ A, ∃ state, segs[g]? = some state ∧ A.count g ≤ state.outstanding

namespace Covers

variable {segs segs' : Segments} {A B : List ℕ} {seq g : ℕ}

theorem nil (segs : Segments) : Covers segs [] := by
  rintro g ⟨⟩

theorem of_subperm (h : Covers segs A) (hsub : B.Subperm A) : Covers segs B := by
  intro g hg
  obtain ⟨state, hstate, hle⟩ := h g (hsub.subset hg)
  exact ⟨state, hstate, (hsub.count_le g).trans hle⟩

theorem bump (h : Covers segs A) (hbump : segs.bump seq = some segs') : Covers segs' (seq :: A) := by
  obtain ⟨state, hstate, hget⟩ := bump_eq_some hbump
  intro g hg
  by_cases hseq : seq = g
  · subst hseq
    refine ⟨_, by rw [hget, if_pos rfl], ?_⟩
    by_cases hmem : seq ∈ A
    · obtain ⟨state', hstate', hle⟩ := h seq hmem
      grind
    · simp [count_eq_zero_of_not_mem hmem]
  · obtain ⟨state', hstate', hle⟩ := h g ((mem_cons.mp hg).resolve_left (Ne.symm hseq))
    grind

theorem sealSegment (h : Covers segs A) (seq : ℕ) : Covers (segs.sealSegment seq) A := by
  intro g hg
  obtain ⟨state, hstate, hle⟩ := h g hg
  grind [getElem?_sealSegment]

theorem track (h : Covers segs A) (hnew : segs[seq]? = none) : Covers (segs.track seq) A := by
  intro g hg
  obtain ⟨state, hstate, hle⟩ := h g hg
  grind [getElem?_track]

theorem notMem_of_victim (h : Covers segs A) (hvictim : g ∈ segs.collectConfirmed.1) : g ∉ A := by
  intro hg
  obtain ⟨state, hstate, hle⟩ := h g hg
  grind [mem_collectConfirmed, exhausted]

theorem collectConfirmed (h : Covers segs A) : Covers segs.collectConfirmed.2 A := by
  intro g hg
  obtain ⟨state, hstate, hle⟩ := h g hg
  grind [getElem?_collectConfirmed_of_pos]

theorem confirmOne {pos : WalPos} (h : Covers segs (pos.segment :: A)) :
    Covers (segs.confirmOne pos) A := by
  intro g hg
  obtain ⟨state, hstate, hle⟩ := h g (mem_cons_of_mem _ hg)
  grind [getElem?_confirmOne]

variable {positions : List WalPos}

theorem foldl_confirmOne (h : Covers segs (positions.map WalPos.segment ++ A)) :
    Covers (positions.foldl Segments.confirmOne segs) A := by
  induction positions generalizing segs with
  | nil => exact h
  | cons pos positions ih => exact ih (confirmOne h)

theorem foldl_confirmOne_of_notMem (h : Covers segs A) (hother : ∀ pos ∈ positions, pos.segment ∉ A) :
    Covers (positions.foldl Segments.confirmOne segs) A := by
  intro g hg
  obtain ⟨state, hstate, hle⟩ := h g hg
  grind [getElem?_foldl_confirmOne]

theorem confirm (h : Covers segs (positions.map WalPos.segment ++ A)) :
    Covers (segs.confirm positions).2 A ∧ ∀ g ∈ (segs.confirm positions).1, g ∉ A :=
  ⟨(foldl_confirmOne h).collectConfirmed, fun _ => (foldl_confirmOne h).notMem_of_victim⟩

end Covers

end RSearch.Wal
