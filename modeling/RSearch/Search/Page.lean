import RSearch.Lib.TopK
import RSearch.Search.Bounds
import RSearch.Search.OneSplit

/-!
# Paging with `search_after`

A caller asks again with the sort values of the last hit it has until a page is empty.  Each answer is
put together from the splits: one wholly on the side that has been paged is passed over, every other
gives its first documents past the cursor.
-/

namespace RSearch.Search

open List Json Index TopK Except Split Doc Search.Bound

/-! ### The request -/

def maxResultWindow : ℕ := 10000

/-- What `SearchRequest::parse` makes of a body; what `search_after` is read as depends on the sort. -/
structure PageRequest (α : Type) where
  query : Value
  start : ℕ
  size : ℕ
  after : Option α

def asU64 : Value → Option ℕ
  | .number (.posInt n) => some n
  | _ => none

def parseSigned (text : List Char) : Option ℤ :=
  let digits := match text with
    | '-' :: ds | '+' :: ds => ds
    | ds => ds
  if digits ≠ [] ∧ digits.all Char.isDigit then
    parseI64 (if text.head? = some '-' then text else digits)
  else none

/-- An element of `search_after`: an integer, a float without a fraction that is exact, or a text. -/
def cursorInt : Value → Option ℤ
  | .number n =>
    n.asI64.or
      (if n.asF64.isFinite = true ∧ n.asF64.hasFraction = false ∧
          |n.asF64.value| ≤ 9007199254740992 then some n.asF64.toInt64
       else none)
  | .string s => parseSigned s.toList
  | .null | .bool _ | .array _ | .object _ => none

def cursorMillis (v : Value) : Except Refusal ℤ :=
  match cursorInt v with
  | some n => .ok (clampMillis n)
  | none => .error (.badRequest "search_after[0] must be the timestamp sort value (epoch millis)")

def cursorSeq (v : Value) : Except Refusal ℤ :=
  match cursorInt v with
  | some n => .ok n
  | none => .error (.badRequest "search_after[1] must be the _seq sort value (integer)")

def parseSearchAfter : Option Value → Except Refusal (Option SearchAfter)
  | none | some .null => .ok none
  | some (.array [ts]) => do
    let millis ← cursorMillis ts
    return some ⟨millis, none⟩
  | some (.array [ts, seq]) => do
    let millis ← cursorMillis ts
    let seq ← cursorSeq seq
    return some ⟨millis, some seq⟩
  | some _ =>
    .error (.badRequest "search_after must be an array of 1-2 sort values ([timestamp, _seq])")

def parseWith {α : Type} (readAfter : Option Value → Except Refusal (Option α)) (body : Value) :
    Except Refusal (PageRequest α) := do
  let query := (body.get "query").getD (.object [("match_all", .object [])])
  let start := ((body.get "from").bind asU64).getD 0
  let size := ((body.get "size").bind asU64).getD 10
  if maxResultWindow < size ∨ maxResultWindow < start ∨ maxResultWindow < start + size then
    .error (.badRequest s!"from + size must be <= {maxResultWindow}")
  else
    let after ← readAfter (body.get "search_after")
    if after.isSome ∧ start ≠ 0 then
      .error (.badRequest "[from] parameter must be set to 0 when [search_after] is used")
    else return ⟨query, start, size, after⟩

def parseRequest : Value → Except Refusal (PageRequest SearchAfter) := parseWith parseSearchAfter

/-! ### The answer -/

def Ranks (desc : Bool) (d d' : Doc) : Prop := sortKey desc d ≤ sortKey desc d'

instance (desc : Bool) : DecidableRel (Ranks desc) :=
  fun d d' => inferInstanceAs (Decidable (sortKey desc d ≤ sortKey desc d'))

instance (desc : Bool) : Std.Total (Ranks desc) := ⟨fun _ _ => le_total _ _⟩

instance (desc : Bool) : IsTrans Doc (Ranks desc) := ⟨fun _ _ _ => le_trans⟩

/-- What a split answers.  One on the paged side of the cursor need not be opened; every other one
translates the query against its own schema. -/
def Split.answer (now : Option ℤ) (query : Value) (limit : ℕ) (plan : Plan) (s : Split) :
    Except Refusal (List Doc) :=
  if s.outsideCursor plan then .ok []
  else (translateQuery s.schema now query).map fun _ => s.page now query limit plan

/-- **The page of a search by timestamp.** -/
def searchPage (now : Option ℤ) (published : List Split) (desc : Bool) (body : Value) :
    Except Refusal (List Doc) := do
  let r ← parseRequest body
  let splits ← searchedSplits now published r.query
  let answers ← splits.mapM (Split.answer now r.query (r.start + r.size) (.timestamp desc r.after))
  return ((answers.flatten.insertionSort (Ranks desc)).drop r.start).take r.size

def intNumber (n : ℤ) : Value := .number (if 0 ≤ n then .posInt n.toNat else .negInt n)

def Doc.sortValues (d : Doc) : Value := .array [intNumber d.millis, intNumber d.seqKey]

def pageBody (query : Value) (size : ℕ) (after : Option Value) : Value :=
  .object ([("query", query), ("size", .number (.posInt size))] ++
    (after.map fun values => ("search_after", values)).toList)

/-- **Paging**: page after page, until one is empty. -/
def pages (now : Option ℤ) (published : List Split) (query : Value) (desc : Bool) (size : ℕ) (n : ℕ) :
    Except Refusal (Option (List Doc)) :=
  follow (fun after => searchPage now published desc (pageBody query size after)) Doc.sortValues n none

/-! ### The cursor is the last hit -/

def Doc.cursor (d : Doc) : SearchAfter := ⟨d.millis, some d.seqKey⟩

theorem cursorInt_intNumber {n : ℤ} (hn : n < 2 ^ 63) : cursorInt (intNumber n) = some n := by
  unfold intNumber
  split_ifs with hpos
  · have hlt : n.toNat < 2 ^ 63 := by omega
    rw [cursorInt, Number.asI64, if_pos hlt, Int.toNat_of_nonneg hpos]
    rfl
  · rfl

theorem Doc.seqKey_lt (d : Doc) : d.seqKey < 2 ^ 63 := by
  unfold seqKey
  cases hseq : d.seq with
  | none => decide
  | some n =>
    have := d.fits n hseq
    grind

theorem parseSearchAfter_sortValues (d : Doc) :
    parseSearchAfter (some d.sortValues) = .ok (some d.cursor) := by
  have hmillis : d.millis < 2 ^ 63 := by
    have := d.safe.2
    unfold maxSafeMillis i64Max at this
    omega
  have hclamp : clampMillis d.millis = d.millis := by
    unfold clampMillis
    rw [min_eq_left d.safe.2, max_eq_right d.safe.1]
  have hts : cursorMillis (intNumber d.millis) = .ok d.millis := by
    grind [cursorInt_intNumber, cursorMillis]
  have hseq : cursorSeq (intNumber d.seqKey) = .ok d.seqKey := by
    rw [cursorSeq, cursorInt_intNumber d.seqKey_lt]
  rw [sortValues, parseSearchAfter, hts, hseq]
  rfl

/-! ### What is past the cursor -/

variable {d e : Doc} {s : Split} {desc : Bool} {now : Option ℤ} {query : Value} {limit size n : ℕ}
  {published splits : List Split} {i : Interval}

theorem before_desc_iff : Before (Ranks true) e d ↔
    d.millis < e.millis ∨ d.millis = e.millis ∧ d.seqKey < e.seqKey := by
  simp only [Before, Ranks, sortKey, if_true, not_le, Prod.Lex.toLex_lt_toLex, neg_lt_neg_iff, neg_inj]
  rw [@eq_comm _ e.millis]

theorem before_asc_iff : Before (Ranks false) e d ↔
    e.millis < d.millis ∨ e.millis = d.millis ∧ e.seqKey < d.seqKey := by
  simp [Before, Ranks, sortKey, Prod.Lex.toLex_lt_toLex]

theorem Doc.neg_one_le_seqKey (d : Doc) : -1 ≤ d.seqKey := by
  unfold seqKey
  cases d.seq with
  | none => exact le_rfl
  | some n =>
    simp only [Option.elim_some]
    omega

theorem cursorClause_matches_iff (hd : d ∈ s.docs) :
    (cursorClause s.hasSeq e.cursor desc).matches s.schema d = true ↔ Before (Ranks desc) e d := by
  have hterm : fromTimestampMillis e.millis = e.millis * 1000000 :=
    fromTimestampMillis_of_safe e.safe.1 e.safe.2
  have hseq := s.seqs d hd
  have hlow := e.neg_one_le_seqKey
  cases hhas : s.hasSeq with
  | true =>
    obtain ⟨n, hn⟩ := Option.isSome_iff_exists.mp (hseq.trans hhas)
    have hkey : d.seqKey = n := by simp [seqKey, hn]
    cases desc with
    | true =>
      rw [before_desc_iff, hkey]
      simp [cursorClause, cursor, Query.matches, matchesAll, matchesAny, below, above, hterm, hn]
      omega
    | false =>
      rw [before_asc_iff, hkey]
      simp [cursorClause, cursor, Query.matches, matchesAll, matchesAny, below, above, hterm, hn]
      omega
  | false =>
    have hn : d.seq = none := by
      rw [hhas] at hseq
      exact Option.isSome_eq_false_iff.mp hseq |> Option.isNone_iff_eq_none.mp
    have hkey : d.seqKey = -1 := by simp [seqKey, hn]
    cases desc with
    | true =>
      rw [before_desc_iff, hkey]
      by_cases hreal : 0 ≤ e.seqKey
      · grind [below, cursorClause, Query.matches, cursor, above]
      · grind [below, cursorClause, Query.matches, cursor, above]
    | false =>
      rw [before_asc_iff, hkey]
      simp [cursorClause, cursor, Query.matches, below, above, hterm]
      omega

theorem not_before_of_outsideCursor (hd : d ∈ s.docs)
    (h : s.outsideCursor (.timestamp desc (some e.cursor)) = true) : ¬ Before (Ranks desc) e d := by
  obtain ⟨hstart, hend⟩ := s.covers d hd
  cases desc with
  | true =>
    have hout : e.millis < s.timeStart := of_decide_eq_true h
    rw [before_desc_iff]
    omega
  | false =>
    have hout : s.timeEnd < e.millis := of_decide_eq_true h
    rw [before_asc_iff]
    omega

/-! ### The page of a split and of all splits -/

def Split.remaining (now : Option ℤ) (query : Value) (desc : Bool) (s : Split) : Option Doc → List Doc
  | none => s.found now query
  | some e => past (Ranks desc) e (s.found now query)

theorem Split.outsideCursor_none : s.outsideCursor (.timestamp desc none) = false := by
  cases desc <;> rfl

theorem Split.page_of_outsideCursor {plan : Plan} (h : s.outsideCursor plan = true) :
    s.page now query limit plan = [] :=
  if_pos h

theorem Split.page_eq_first (hlimit : 1 ≤ limit) (last : Option Doc) :
    s.page now query limit (.timestamp desc (last.map cursor)) =
      first (Ranks desc) limit (s.remaining now query desc last) := by
  have hmax : max limit 1 = limit := max_eq_left hlimit
  have hdocs : ∀ d ∈ s.found now query, d ∈ s.docs := fun d hd => (mem_filter.mp hd).1
  cases last with
  | none =>
    rw [Option.map_none, page, outsideCursor_none, if_neg Bool.false_ne_true]
    simp only [topDocs, hmax]
    rfl
  | some e =>
    rw [Option.map_some, page]
    split_ifs with hout
    · have hnone : s.remaining now query desc (some e) = [] := by
        refine filter_eq_nil_iff.mpr fun d hd hbefore => ?_
        exact not_before_of_outsideCursor (hdocs d hd) hout (of_decide_eq_true hbefore)
      rw [hnone, first, insertionSort_nil, take_nil]
    · have hpast : (s.found now query).filter ((cursorClause s.hasSeq e.cursor desc).matches s.schema)
          = s.remaining now query desc (some e) := by
        refine filter_congr fun d hd => ?_
        grind [cursorClause_matches_iff]
      simp only [hpast, topDocs, hmax]
      rfl

theorem parseWith_pageBody {α : Type} {readAfter : Option Value → Except Refusal (Option α)}
    (hwindow : size ≤ maxResultWindow) {values : Option Value} {after : Option α}
    (hafter : readAfter values = .ok after) :
    parseWith readAfter (pageBody query size values) = .ok ⟨query, 0, size, after⟩ := by
  cases values with
  | none | some v =>
    simp [parseWith, pageBody, Value.get, Members.get, List.lookup, asU64, hafter, hwindow]

theorem parseRequest_pageBody (hwindow : size ≤ maxResultWindow) (last : Option Doc) :
    parseRequest (pageBody query size (last.map sortValues)) =
      .ok ⟨query, 0, size, last.map cursor⟩ := by
  refine parseWith_pageBody hwindow ?_
  cases last with
  | none => rfl
  | some e => exact parseSearchAfter_sortValues e

theorem parseRequest_pageBody_of_lt (hwindow : maxResultWindow < size) :
    parseRequest (pageBody query size none) =
      .error (.badRequest s!"from + size must be <= {maxResultWindow}") := by
  simp [parseRequest, parseWith, pageBody, Value.get, Members.get, List.lookup, asU64, hwindow]

def DistinctPositions (published : List Split) : Prop :=
  ((published.flatMap Split.docs).map fun d => (d.millis, d.seqKey)).Nodup

instance (published : List Split) : Decidable (DistinctPositions published) :=
  inferInstanceAs (Decidable (List.Nodup _))

theorem apart_of_distinct {docs : List Doc} (desc : Bool)
    (h : (docs.map fun d => (d.millis, d.seqKey)).Nodup) : Apart (Ranks desc) docs := by
  refine List.Pairwise.imp ?_ (pairwise_map.mp h)
  rintro d d' hne ⟨hle, hge⟩
  have hkey : sortKey desc d = sortKey desc d' := le_antisymm hle hge
  refine hne ?_
  cases desc <;> simpa [sortKey] using hkey

theorem searchPage_eq_first (hsize : 1 ≤ size) (hwindow : size ≤ maxResultWindow)
    (hsplits : searchedSplits now published query = .ok splits)
    (haccept : ∀ s ∈ splits, ∃ q, translateQuery s.schema now query = .ok q)
    (happart : Apart (Ranks desc) (splits.flatMap (found now query))) (last : Option Doc) :
    searchPage now published desc (pageBody query size (last.map sortValues)) = .ok (first (Ranks desc) size
        (splits.flatMap fun s => s.remaining now query desc last)) := by
  have hanswer : ∀ s ∈ splits, s.answer now query (0 + size) (.timestamp desc (last.map cursor)) =
        .ok (first (Ranks desc) size (s.remaining now query desc last)) := by
    intro s hs
    obtain ⟨q, hq⟩ := haccept s hs
    rw [zero_add, ← page_eq_first hsize last, answer, hq]
    split_ifs with hout
    · rw [page_of_outsideCursor hout]
    · rfl
  have hremaining : Apart (Ranks desc) (splits.flatMap fun s => s.remaining now query desc last) := by
    refine happart.sublist (flatMap_sublist fun s _ => ?_)
    cases last with
    | none => exact Sublist.refl _
    | some e => exact filter_sublist
  rw [searchPage, parseRequest_pageBody hwindow last]
  simp only [bind, Except.bind, pure, Except.pure, hsplits]
  rw [mapM_eq_ok hanswer]
  exact congrArg Except.ok (first_flatMap hremaining size)

/-! ### Following the pages -/

theorem pages_eq_insertionSort (hsize : 1 ≤ size) (hwindow : size ≤ maxResultWindow)
    (hsplits : searchedSplits now published query = .ok splits)
    (haccept : ∀ s ∈ splits, ∃ q, translateQuery s.schema now query = .ok q)
    (happart : Apart (Ranks desc) (splits.flatMap (found now query)))
    (hn : (splits.flatMap (found now query)).length < n) :
    pages now published query desc size n =
      .ok (some ((splits.flatMap (found now query)).insertionSort (Ranks desc))) := by
  refine follow_eq_insertionSort happart hsize hn ?_ ?_
  · exact searchPage_eq_first hsize hwindow hsplits haccept happart none
  · intro e _
    have hpage := searchPage_eq_first hsize hwindow hsplits haccept happart (some e)
    rw [past, filter_flatMap]
    exact hpage

/-- **The condition.**  The requests are answered, which is for pages of up to ten thousand hits, queries
that span no more splits than that and are accepted by each of them; and no split outside the interval of
the query has a match. -/
def Pageable (now : Option ℤ) (published : List Split) (query : Value) (size : ℕ) : Prop :=
  size ≤ maxResultWindow ∧ ∃ i splits, extractTimeBounds now query = .ok i ∧
    searchedSplits now published query = .ok splits ∧
    (∀ s ∈ splits, ∃ q, translateQuery s.schema now query = .ok q) ∧
    NothingPruned now published query i

theorem answered_of_pages {hits : List Doc} (h : pages now published query desc size n = .ok (some hits)) :
    size ≤ maxResultWindow ∧ ∃ i splits, extractTimeBounds now query = .ok i ∧
      searchedSplits now published query = .ok splits ∧
      ∀ s ∈ splits, ∃ q, translateQuery s.schema now query = .ok q := by
  cases n with
  | zero => cases h
  | succ n =>
    rw [pages, follow] at h
    obtain ⟨page, hpage, _⟩ := of_bind h
    have hwindow : size ≤ maxResultWindow := by
      by_contra hbig
      rw [searchPage, parseRequest_pageBody_of_lt (not_le.mp hbig)] at hpage
      cases hpage
    have hparse : parseRequest (pageBody query size none) = .ok ⟨query, 0, size, none⟩ :=
      parseRequest_pageBody hwindow none
    rw [searchPage, hparse] at hpage
    obtain ⟨r, hr, hpage⟩ := of_bind hpage
    cases hr
    obtain ⟨splits, hsplits, hpage⟩ := of_bind hpage
    obtain ⟨answers, hanswers, _⟩ := of_bind hpage
    have hscan : ∃ i, extractTimeBounds now query = .ok i := by
      obtain ⟨i, hi, _⟩ := of_bind hsplits
      cases hbounds : extractTimeBounds now query with
      | ok i => exact ⟨i, rfl⟩
      | error e =>
        rw [hbounds] at hi
        cases hi
    obtain ⟨i, hi⟩ := hscan
    refine ⟨hwindow, i, splits, hi, hsplits, fun s hs => ?_⟩
    obtain ⟨docs, hdocs⟩ := exists_eq_ok_of_mapM hanswers hs
    rw [answer, outsideCursor_none, if_neg Bool.false_ne_true] at hdocs
    obtain ⟨q, hq, _⟩ := map_eq_ok_iff.mp hdocs
    exact ⟨q, hq⟩

theorem found_perm (hscan : extractTimeBounds now query = .ok i)
    (hsplits : searchedSplits now published query = .ok splits) :
    (published.flatMap (found now query)).Perm (splits.flatMap (found now query) ++
      (published.filter fun s => !s.overlaps i).flatMap (found now query)) := by
  rw [← flatMap_append]
  refine Perm.flatMap_right _ ?_
  exact (filter_append_perm (overlaps i) published).symm.trans
    ((searchedSplits_perm hscan hsplits).symm.append_right _)

theorem nothingPruned_iff_flatMap : NothingPruned now published query i ↔
      (published.filter fun s => !s.overlaps i).flatMap (found now query) = [] := by
  rw [flatMap_eq_nil_iff]
  simp [NothingPruned]

/-- **The pages have every match once and in order exactly when the requests are answered and nothing is
pruned.**  For any published splits, with or without `_seq`, no two of whose documents are at one
position, any query, any size of at least one, and both directions.  `now` is the moment a query that
says so is read at. -/
theorem pages_complete_iff {now : Option ℤ} {published : List Split} {query : Value} {desc : Bool}
    {size : ℕ} (hsize : 1 ≤ size) (hdistinct : DistinctPositions published) :
    (∃ n hits, pages now published query desc size n = .ok (some hits) ∧
      hits.Perm (published.flatMap (Split.found now query)) ∧
      hits.Pairwise fun d d' => sortKey desc d < sortKey desc d') ↔
    Pageable now published query size := by
  have hfound : Apart (Ranks desc) (published.flatMap (Split.found now query)) :=
    (apart_of_distinct desc hdistinct).sublist (flatMap_sublist fun s _ => filter_sublist)
  have hsearched : ∀ {i splits}, extractTimeBounds now query = .ok i →
      searchedSplits now published query = .ok splits →
      Apart (Ranks desc) (splits.flatMap (Split.found now query)) := fun hscan hsplits =>
    (hfound.perm (found_perm hscan hsplits)).sublist (sublist_append_left _ _)
  constructor
  · rintro ⟨n, hits, hpages, hperm, _⟩
    obtain ⟨hwindow, i, splits, hscan, hsplits, haccept⟩ := answered_of_pages hpages
    refine ⟨hwindow, i, splits, hscan, hsplits, haccept, nothingPruned_iff_flatMap.mpr ?_⟩
    -- enough questions give the same hits, which are those of the splits searched
    have hall := pages_eq_insertionSort hsize hwindow hsplits haccept (hsearched hscan hsplits)
      (lt_of_lt_of_le (Nat.lt_succ_self _) (le_max_right n _))
    rw [show pages now published query desc size _ = .ok (some hits) from
      follow_mono hpages (le_max_left _ _), Except.ok.injEq, Option.some.injEq] at hall
    have hlength := (hperm.trans (found_perm hscan hsplits)).length_eq
    rw [hall, length_insertionSort, length_append] at hlength
    exact length_eq_zero_iff.mp (by omega)
  · rintro ⟨hwindow, i, splits, hscan, hsplits, haccept, hpruned⟩
    have happart := hsearched hscan hsplits
    refine ⟨_, _, pages_eq_insertionSort hsize hwindow hsplits haccept happart (Nat.lt_succ_self _),
      ?_, ?_⟩
    · have hperm := found_perm hscan hsplits
      rw [nothingPruned_iff_flatMap.mp hpruned, append_nil] at hperm
      exact (perm_insertionSort _ _).trans hperm.symm
    · exact (pairwise_before_insertionSort happart).imp fun h => not_le.mp h

def atFifteenHundredLegacy : Doc := { atFifteenHundred with seq := none, fits := nofun }

def legacyDocument : Split :=
  { oneDocument with
    docs := [atFifteenHundredLegacy]
    hasSeq := false
    covers := fun _ hd => mem_singleton.mp hd ▸ ⟨le_rfl, le_rfl⟩
    seqs := fun _ hd => mem_singleton.mp hd ▸ rfl }

/-- Two documents at one moment, in splits with and without `_seq`, come on a page of their own each. -/
theorem pages_complete_sameMoment :
    DistinctPositions [oneDocument, legacyDocument] ∧
      ∃ n hits, pages none [oneDocument, legacyDocument] betweenSeconds true 1 n = .ok (some hits) ∧
        hits.Perm ([oneDocument, legacyDocument].flatMap (Split.found none betweenSeconds)) ∧
        hits.Pairwise fun d d' => sortKey true d < sortKey true d' := by
  have hdistinct : DistinctPositions [oneDocument, legacyDocument] := by decide
  refine ⟨hdistinct, (pages_complete_iff le_rfl hdistinct).mpr ?_⟩
  refine ⟨by decide, ⟨some 1000000, some 2000000⟩, [oneDocument, legacyDocument], rfl, rfl, ?_, ?_⟩
  · intro s hs
    all_goals exact ⟨_, rfl⟩
  · intro s hs hout
    rcases mem_pair.mp hs with rfl | rfl
    all_goals cases hout

/-- **A match in a split that is pruned comes on no page.**  The query keeps to the timestamps from 1000
seconds on and matches the document; its interval starts at 2000, and the first page is empty. -/
theorem pages_miss_pruned :
    DistinctPositions [oneDocument] ∧
      oneDocument.found none twoLowerBounds = [atFifteenHundred] ∧
      ¬ ∃ n hits, pages none [oneDocument] twoLowerBounds true 10 n = .ok (some hits) ∧
        hits.Perm ([oneDocument].flatMap (Split.found none twoLowerBounds)) := by
  refine ⟨by decide, rfl, ?_⟩
  rintro ⟨n, hits, hpages, hperm⟩
  have hempty : pages none [oneDocument] twoLowerBounds true 10 1 = .ok (some []) := rfl
  have hmore := follow_mono hempty (Nat.le_add_left 1 n)
  rw [show follow _ _ (n + 1) none = .ok (some hits) from follow_mono hpages (Nat.le_succ n)] at hmore
  cases hmore
  exact cons_ne_nil _ _ hperm.nil_eq.symm

end RSearch.Search
