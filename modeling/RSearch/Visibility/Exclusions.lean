import RSearch.Control.Swap
import RSearch.Lib.Feed

/-!
# Exclusion sets

A split is immutable, so a delete or a replacement is a *tombstone*: hide the versions of a document id
whose `_seq` is strictly below a bound.  What they hide in one split is kept with the open reader, as
the set of excluded documents and the sequence of the last tombstone folded into it; a later list only
costs its tail.
-/

namespace RSearch.Visibility

open List Control

def below (t : Tombstone) (d : Doc) : Bool :=
  d.id == some t.docId && decide (d.seq < t.beforeSeq)

variable {t : Tombstone} {d : Doc} {docs : List Doc} {tombstones : List Tombstone}

theorem below_iff : below t d = true ↔ d.id = some t.docId ∧ d.seq < t.beforeSeq := by
  simp [below]

theorem hides_iff {streamId : ℤ} :
    t.hides streamId d = true ↔ t.streamId = streamId ∧ below t d = true := by
  simp [Tombstone.hides, below, and_assoc]

structure ExclusionSet where
  appliedThrough : ℤ
  excluded : List Doc
deriving DecidableEq

def ExclusionSet.empty : ExclusionSet := ⟨0, []⟩

def ExclusionSet.seedAppliedThrough (set : ExclusionSet) (appliedThrough : ℤ) : ExclusionSet :=
  if set.appliedThrough = 0 ∧ set.excluded = [] ∧ 0 < appliedThrough then
    { set with appliedThrough } else set

/-- `seq_min` of a split's metadata: absent in the legacy layout, whose documents have no id. -/
def seqMin (docs : List Doc) : Option ℤ :=
  ((docs.filter fun d => d.id.isSome).map Doc.seq).min?

def applyTombstones (docs : List Doc) (set : ExclusionSet) (tombstones : List Tombstone) :
    ExclusionSet :=
  let pending := tombstones.dropWhile fun t => decide (t.seq ≤ set.appliedThrough)
  match pending.getLast? with
  | none => set
  | some last =>
    let looked := pending.filter fun t => !(seqMin docs).any fun min => decide (t.beforeSeq ≤ min)
    { appliedThrough := last.seq
      excluded := set.excluded ++ docs.filter fun d => looked.any fun t => below t d }

def openReader (r : SplitRow) : ExclusionSet :=
  ExclusionSet.empty.seedAppliedThrough r.tombstoneSeqApplied

@[simp] theorem openReader_excluded (r : SplitRow) : (openReader r).excluded = [] := by
  unfold openReader ExclusionSet.seedAppliedThrough
  split <;> rfl

theorem openReader_appliedThrough {r : SplitRow} (h : 0 ≤ r.tombstoneSeqApplied) :
    (openReader r).appliedThrough = r.tombstoneSeqApplied := by
  unfold openReader ExclusionSet.seedAppliedThrough
  split
  · rfl
  · next hseed =>
      have hzero : ¬ 0 < r.tombstoneSeqApplied := fun hpos => hseed ⟨rfl, rfl, hpos⟩
      exact le_antisymm h (not_lt.mp hzero)

/-! ## The two shortcuts change nothing -/

theorem seqMin_le {min : ℤ} (h : seqMin docs = some min) (hd : d ∈ docs) (hid : d.id.isSome) :
    min ≤ d.seq := by
  refine (min?_eq_some_iff.mp h).2 _ (mem_map_of_mem ?_)
  exact mem_filter.mpr ⟨hd, hid⟩

theorem id_eq_none_of_seqMin (h : seqMin docs = none) (hd : d ∈ docs) : d.id = none := by
  rw [seqMin, min?_eq_none_iff, map_eq_nil_iff] at h
  by_contra hid
  have hmem : d ∈ docs.filter fun d => d.id.isSome :=
    mem_filter.mpr ⟨hd, Option.isSome_iff_ne_none.mpr hid⟩
  rw [h] at hmem
  cases hmem

theorem below_eq_false_of_seqMin {min : ℤ} (h : seqMin docs = some min) (hle : t.beforeSeq ≤ min)
    (hd : d ∈ docs) : below t d = false := by
  rw [Bool.eq_false_iff]
  intro hbelow
  obtain ⟨hid, hlt⟩ := below_iff.mp hbelow
  have hmin := seqMin_le h hd (hid ▸ rfl)
  omega

theorem mem_pending (hsorted : Feed.Sorted Tombstone.seq tombstones) {applied : ℤ} :
    t ∈ (tombstones.dropWhile fun t => decide (t.seq ≤ applied)) ↔
      t ∈ tombstones ∧ applied < t.seq := by
  induction tombstones with
  | nil => simp
  | cons u ts ih =>
    obtain ⟨hhead, htail⟩ := pairwise_cons.mp hsorted
    by_cases hu : u.seq ≤ applied
    · rw [dropWhile_cons_of_pos (by simpa using hu), ih htail]
      constructor
      · rintro ⟨hmem, hlt⟩
        exact ⟨mem_cons_of_mem _ hmem, hlt⟩
      · rintro ⟨hmem, hlt⟩
        rcases mem_cons.mp hmem with rfl | hmem'
        · exact absurd hu hlt.not_ge
        · exact ⟨hmem', hlt⟩
    · rw [dropWhile_cons_of_neg (by simpa using hu)]
      constructor
      · refine fun hmem => ⟨hmem, ?_⟩
        rcases mem_cons.mp hmem with rfl | hmem'
        · exact not_le.mp hu
        · exact (not_le.mp hu).trans (hhead t hmem')
      · exact fun h => h.1

theorem mem_applyTombstones {set : ExclusionSet} (hsorted : Feed.Sorted Tombstone.seq tombstones) :
    d ∈ (applyTombstones docs set tombstones).excluded ↔ d ∈ set.excluded ∨
        d ∈ docs ∧ ∃ t ∈ tombstones, set.appliedThrough < t.seq ∧ below t d = true := by
  unfold applyTombstones
  dsimp only
  split
  · next hlast =>
      -- nothing is pending
      have hnil := getLast?_eq_none_iff.mp hlast
      refine ⟨.inl, ?_⟩
      rintro (h | ⟨-, t, ht, hlt, -⟩)
      · exact h
      · have hmem := (mem_pending hsorted).mpr ⟨ht, hlt⟩
        rw [hnil] at hmem
        cases hmem
  · rw [mem_append, mem_filter]
    refine or_congr_right (and_congr_right fun hd => ?_)
    rw [any_eq_true]
    constructor
    · rintro ⟨t, ht, hbelow⟩
      obtain ⟨hmem, hlt⟩ := (mem_pending hsorted).mp (mem_filter.mp ht).1
      exact ⟨t, hmem, hlt, hbelow⟩
    · rintro ⟨t, hmem, hlt, hbelow⟩
      refine ⟨t, mem_filter.mpr ⟨(mem_pending hsorted).mpr ⟨hmem, hlt⟩, ?_⟩, hbelow⟩
      rw [Bool.not_eq_true', Bool.eq_false_iff]
      intro hskip
      obtain ⟨min, hmin, hle⟩ := (Option.any_eq_true _ _).mp hskip
      rw [below_eq_false_of_seqMin hmin (of_decide_eq_true hle) hd] at hbelow
      cases hbelow

theorem appliedThrough_applyTombstones (docs : List Doc) (set : ExclusionSet) (tombstones : List Tombstone) :
    (applyTombstones docs set tombstones).appliedThrough = set.appliedThrough ∨
      (applyTombstones docs set tombstones).appliedThrough = Feed.last Tombstone.seq tombstones := by
  unfold applyTombstones
  dsimp only
  split
  · exact .inl rfl
  · next last hlast =>
      refine .inr ?_
      obtain ⟨init, hinit⟩ := dropWhile_suffix (l := tombstones) fun t => decide (t.seq ≤ set.appliedThrough)
      have hne : tombstones.dropWhile (fun t => decide (t.seq ≤ set.appliedThrough)) ≠ [] := by
        intro hnil
        rw [hnil] at hlast
        cases hlast
      rw [← hinit, Feed.last_append_of_ne_nil init hne, Feed.last, hlast]
      rfl

end RSearch.Visibility
