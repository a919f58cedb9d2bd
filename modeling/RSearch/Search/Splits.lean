import RSearch.Search.Query

/-!
# The splits of a search

The metastore has a row for every published split, with the first and the last timestamp in it.  A
search asks for the rows that overlap its interval, in the order of their first timestamps.  A split
that is not among them is pruned: nothing looks at its documents.
-/

namespace RSearch.Search

open Json Index

/-- A published split: its documents, its row's first and last timestamp, the schema it was built with,
whether that has the `_seq` column, and the documents that tombstones hide. -/
structure Split where
  docs : List Doc
  timeStart : ℤ
  timeEnd : ℤ
  schema : Schema
  hasSeq : Bool
  hidden : Doc → Bool
  covers : ∀ d ∈ docs, timeStart ≤ d.millis ∧ d.millis ≤ timeEnd
  fits : timeStart ≤ i64Max ∧ i64Min ≤ timeEnd
  seqs : ∀ d ∈ docs, d.seq.isSome = hasSeq

/-- The row overlaps the interval; an open side is bounded by the least or the greatest number. -/
def Split.overlaps (i : Interval) (s : Split) : Bool :=
  decide (i.start.getD i64Min ≤ s.timeEnd) && decide (s.timeStart ≤ i.finish.getD i64Max)

def splitsForQuery (published : List Split) (i : Interval) (limit : ℕ) : List Split :=
  ((published.filter (Split.overlaps i)).insertionSort fun s s' => s.timeStart ≤ s'.timeStart).take limit

def maxQuerySplits : ℕ := 10000

def searchedSplits (now : Option ℤ) (published : List Split) (query : Value) :
    Except Refusal (List Split) := do
  let i ← (extractTimeBounds now query).mapError Refusal.panic
  let splits := splitsForQuery published i (maxQuerySplits + 1)
  if maxQuerySplits < splits.length then
    .error (.badRequest s!"query spans more than {maxQuerySplits} splits; narrow the time range")
  else return splits

/-- The documents of a split that a query finds: its translation matches them, and they are not
hidden. -/
def Split.finds (now : Option ℤ) (query : Value) (s : Split) (d : Doc) : Bool :=
  match translateQuery s.schema now query with
  | .ok q => q.matches s.schema d && !s.hidden d
  | .error _ => false

def Split.found (now : Option ℤ) (query : Value) (s : Split) : List Doc :=
  s.docs.filter (s.finds now query)

variable {i : Interval}

theorem Split.overlaps_of_contains {s : Split} {d : Doc} (hd : d ∈ s.docs) (h : i.Contains d.millis) :
    s.overlaps i = true := by
  obtain ⟨hstart, hend⟩ := s.covers d hd
  obtain ⟨hlower, hupper⟩ := h
  rw [overlaps, Bool.and_eq_true, decide_eq_true_eq, decide_eq_true_eq]
  constructor
  · cases hi : i.start with
    | none => exact s.fits.2
    | some t => exact (hlower t hi).trans hend
  · cases hi : i.finish with
    | none => exact s.fits.1
    | some t => exact hstart.trans (hupper t hi)

/-- **No split outside the interval has a match.** -/
def NothingPruned (now : Option ℤ) (published : List Split) (query : Value) (i : Interval) : Prop :=
  ∀ s ∈ published, s.overlaps i = false → s.found now query = []

theorem searchedSplits_perm {now : Option ℤ} {published splits : List Split} {query : Value}
    (hscan : extractTimeBounds now query = .ok i) (h : searchedSplits now published query = .ok splits) :
    splits.Perm (published.filter (Split.overlaps i)) := by
  obtain ⟨j, hj, h⟩ := Except.of_bind h
  rw [hscan] at hj
  cases hj
  dsimp only at h
  split_ifs at h with hmany
  cases h
  have hall : (published.filter (Split.overlaps i)).length ≤ maxQuerySplits + 1 := by
    rw [splitsForQuery, List.length_take, List.length_insertionSort] at hmany
    omega
  rw [splitsForQuery, List.take_of_length_le (by rwa [List.length_insertionSort])]
  exact List.perm_insertionSort _ _

end RSearch.Search
