import RSearch.Search.Splits

/-!
# One split of a search

A search by timestamp takes from each split the first documents in the order of timestamp and `_seq`. A
**cursor** is the position of the last document that the caller has, and becomes a clause of the split's
query: a split without the `_seq` column is cut at the cursor's timestamp.
-/

namespace RSearch.Search

open List Json Index

/-! ### The order and the cursor -/

def Doc.seqKey (d : Doc) : ℤ := d.seq.elim (-1) Nat.cast

/-- The position of a document in the order, the least first.  Descending turns both signs. -/
def sortKey (desc : Bool) (d : Doc) : ℤ ×ₗ ℤ :=
  if desc then toLex (-d.millis, -d.seqKey) else toLex (d.millis, d.seqKey)

/-- `search_after`: a timestamp, and a `_seq` unless the caller gave a bare timestamp. -/
structure SearchAfter where
  millis : ℤ
  seq : Option ℤ
  deriving DecidableEq

/-- The clause that keeps to the documents past a cursor, on a split with or without `_seq`. -/
def cursorClause (hasSeq : Bool) (c : SearchAfter) (desc : Bool) : Query :=
  let term := fromTimestampMillis c.millis
  let pastTs : Query :=
    if desc then .range .unbounded (.excluded term) else .range (.excluded term) .unbounded
  match c.seq with
  | none => pastTs
  | some seq =>
    if hasSeq then
      let pastSeq : Query :=
        if desc then .seqRange .unbounded (.excluded seq) else .seqRange (.excluded seq) .unbounded
      let tie : Query := .bool [.range (.included term) (.included term), pastSeq] [] []
      .bool [] [pastTs, tie] []
    else if desc = true ∧ 0 ≤ seq then .range .unbounded (.included term)
    else pastTs

/-- A collector of a field sort, with a limit on what it returns.  It returns some of what it is
given. -/
structure Collector where
  collect : ℕ → Split → List Doc → List Doc
  length_le : ∀ limit s docs, (collect limit s docs).length ≤ docs.length

inductive Plan where
  | timestamp (desc : Bool) (cursor : Option SearchAfter)
  | fields (collector : Collector)

def Split.outsideCursor (s : Split) : Plan → Bool
  | .timestamp true (some c) => decide (c.millis < s.timeStart)
  | .timestamp false (some c) => decide (s.timeEnd < c.millis)
  | _ => false

def topDocs (limit : ℕ) (desc : Bool) (docs : List Doc) : List Doc :=
  (docs.insertionSort fun d d' => sortKey desc d ≤ sortKey desc d').take (max limit 1)

/-- **What a split contributes to the page.** -/
def Split.page (now : Option ℤ) (query : Value) (limit : ℕ) (plan : Plan) (s : Split) : List Doc :=
  if s.outsideCursor plan then []
  else
    match plan with
    | .fields collector => collector.collect limit s (s.found now query)
    | .timestamp desc none => topDocs limit desc (s.found now query)
    | .timestamp desc (some c) =>
      topDocs limit desc ((s.found now query).filter
        ((cursorClause s.hasSeq c desc).matches s.schema))

/-! ### The count -/

/-- What is asked of every split: the query, how many hits, the ceiling of the count as the request has
it, whether there are aggregations, and the order. -/
structure Request where
  query : Value
  limit : ℕ
  track : Option Value
  aggs : Bool
  plan : Plan

def defaultTrackTotalHits : ℕ := 10000

def trackTotalHits : Option Value → Option ℕ
  | none | some (.bool true) => some defaultTrackTotalHits
  | some (.bool false) => some 0
  | some (.number (.posInt n)) => some n
  | some (.number (.negInt _)) | some (.number (.float _)) => none
  | _ => some defaultTrackTotalHits

def isMatchAll : Value → Bool
  | .object ((kind, _) :: _) => kind == "match_all"
  | _ => false

def Split.fullyCovered (query : Value) (i : Interval) (s : Split) : Bool :=
  isMatchAll query && (i.start.all fun t => decide (t ≤ s.timeStart)) &&
    i.finish.all fun t => decide (s.timeEnd ≤ t)

structure Outcome where
  count : ℕ
  isLowerBound : Bool
  deriving DecidableEq

/-- **The count of a split**, with `skip` if enough has been counted elsewhere. -/
def searchSplit (now : Option ℤ) (r : Request) (i : Interval) (s : Split) (skip : Bool) : Outcome :=
  if s.outsideCursor r.plan && skip && !r.aggs then ⟨0, true⟩
  else if s.fullyCovered r.query i && !r.aggs then ⟨s.docs.length - s.docs.countP s.hidden, false⟩
  else if skip && !r.aggs then ⟨(s.page now r.query r.limit r.plan).length, true⟩
  else ⟨(s.found now r.query).length, false⟩

def Split.skippable (r : Request) (i : Interval) (s : Split) : Bool :=
  !r.aggs && (s.outsideCursor r.plan || !s.fullyCovered r.query i)

/-! ### What the count is worth -/

variable {now : Option ℤ} {query : Value} {s : Split} {q : Query} {r : Request} {i : Interval}
  {skip : Bool}

theorem Split.found_of_matchAll (hall : isMatchAll query = true)
    (haccept : translateQuery s.schema now query = .ok q) :
    s.found now query = s.docs.filter fun d => !s.hidden d := by
  have hq : q = .all := by
    rcases query with _ | _ | _ | _ | _ | (_ | ⟨⟨kind, body⟩, _ | ⟨member, ms⟩⟩)
    all_goals try cases hall
    · rw [isMatchAll, beq_iff_eq] at hall
      subst hall
      cases haccept
      rfl
    · cases haccept
  refine filter_congr fun d _ => ?_
  rw [finds, haccept, hq]
  simp [Query.matches]

theorem length_topDocs_le (limit : ℕ) (desc : Bool) (docs : List Doc) :
    (topDocs limit desc docs).length ≤ docs.length :=
  (length_take_le' _ _).trans (length_insertionSort _ _).le

theorem Split.length_page_le {limit : ℕ} {plan : Plan} :
    (s.page now query limit plan).length ≤ (s.found now query).length := by
  unfold page
  split_ifs
  · exact Nat.zero_le _
  · cases plan with
    | fields collector => exact collector.length_le limit s _
    | timestamp desc cursor =>
      cases cursor with
      | none => exact length_topDocs_le limit desc _
      | some c => exact (length_topDocs_le limit desc _).trans (length_filter_le _ _)

theorem searchSplit_isLowerBound :
    (searchSplit now r i s skip).isLowerBound = (skip && s.skippable r i) := by
  unfold searchSplit Split.skippable
  cases skip <;> cases r.aggs <;> cases s.outsideCursor r.plan <;>
    cases s.fullyCovered r.query i <;> rfl

theorem searchSplit_count_eq (haccept : translateQuery s.schema now r.query = .ok q)
    (h : (searchSplit now r i s skip).isLowerBound = false) :
    (searchSplit now r i s skip).count = (s.found now r.query).length := by
  unfold searchSplit at h ⊢
  split_ifs at h ⊢ with houtside hcovered hskip
  · have hall : isMatchAll r.query = true := by
      simp only [Split.fullyCovered, Bool.and_eq_true] at hcovered
      exact hcovered.1.1.1
    rw [Split.found_of_matchAll hall haccept, ← countP_eq_length_filter]
    have := length_eq_countP_add_countP s.hidden (l := s.docs)
    simp only [Bool.not_eq_true] at this
    have hnot : s.docs.countP (fun d => !s.hidden d) = s.docs.countP fun d => decide (s.hidden d = false) :=
      countP_congr fun d _ => by cases s.hidden d <;> simp
    show s.docs.length - s.docs.countP s.hidden = _
    omega
  · rfl

theorem searchSplit_count_le (haccept : translateQuery s.schema now r.query = .ok q) :
    (searchSplit now r i s skip).count ≤ (s.found now r.query).length := by
  cases h : (searchSplit now r i s skip).isLowerBound with
  | false => exact (searchSplit_count_eq haccept h).le
  | true =>
    unfold searchSplit at h ⊢
    split_ifs at h ⊢
    · exact Nat.zero_le _
    · exact Split.length_page_le

end RSearch.Search
