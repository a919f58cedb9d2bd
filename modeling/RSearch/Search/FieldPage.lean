import RSearch.Search.SegmentKeys

/-!
# Paging a field sort

A search by fields collects in every segment of every split the first documents past the cursor, in a
**heap** ordered by the keys of the segment.  The heaps are merged by values to the page, and the next
request has the values of the last hit.
-/

namespace RSearch.Search

open List Json Index TopK Compare FieldCursor Segment Ordering

/-! ### The hits of a segment -/

structure Hit where
  position : Position
  split : ℕ
  segment : ℕ
  row : ℕ
  doc : Doc

def cmpAddress (a b : Hit) : Ordering :=
  (compare a.split b.split).then ((compare a.segment b.segment).then (compare a.row b.row))

/-- **The order of the merges.** -/
def cmpHit (orders : List FieldOrder) (a b : Hit) : Ordering :=
  (cmpHits orders a.position b.position).then (cmpAddress a b)

namespace Segment

def cmpRow (seg : Segment) (fields : List ResolvedSort) (row row' : Row) : Ordering :=
  cmpRanked fields (seg.ranked fields row) (seg.ranked fields row')

def candidates (seg : Segment) (fields : List ResolvedSort) (cursor : Option FieldCursor)
    (finds : Doc → Bool) : List Row :=
  seg.rows.filter fun row => finds row.doc && seg.afterCursor fields cursor (seg.ranked fields row)

/-- The first `limit` rows of a segment, offered one by one. -/
def collect (seg : Segment) (fields : List ResolvedSort) (cursor : Option FieldCursor) (limit : ℕ)
    (finds : Doc → Bool) : List Row :=
  (seg.candidates fields cursor finds).foldl (offer (UpTo (seg.cmpRow fields)) limit) []

def hit (seg : Segment) (fields : List ResolvedSort) (split segment : ℕ) (row : Row) : Hit :=
  ⟨seg.position fields row, split, segment, row.id, row.doc⟩

def harvest (seg : Segment) (fields : List ResolvedSort) (cursor : Option FieldCursor) (limit : ℕ)
    (finds : Doc → Bool) (split segment : ℕ) : List Hit :=
  (seg.collect fields cursor limit finds).map (seg.hit fields split segment)

end Segment

/-! ### The page -/

/-- The segments of every split; together they hold its documents. -/
structure Layout where
  segments : Split → List Segment
  parts : ∀ s, (segments s).flatMap Segment.docs = s.docs

open Layout

/-- The first `limit` hits of a split, out of those of its segments. -/
def Layout.merge (layout : Layout) (now : Option ℤ) (query : Value) (fields : List ResolvedSort)
    (cursor : Option FieldCursor) (limit : ℕ) (s : Split) (split : ℕ) : List Hit :=
  (((layout.segments s).zipIdx.flatMap fun p =>
    p.1.harvest fields cursor limit (s.finds now query) split p.2).insertionSort
      (UpTo (cmpHit (ordersOf fields)))).take limit

def Layout.answer (layout : Layout) (now : Option ℤ) (query : Value) (fields : List ResolvedSort)
    (cursor : Option FieldCursor) (limit : ℕ) (s : Split) (split : ℕ) : Except Refusal (List Hit) :=
  (translateQuery s.schema now query).map fun _ =>
    layout.merge now query fields cursor (max limit 1) s split

/-- `search_after` of a search by fields; its values are read when the sort is resolved. -/
def parseAfterValues : Option Value → Except Refusal (Option (List Value))
  | none | some .null => .ok none
  | some (.array []) => .error (.badRequest "search_after must be a non-empty array of sort values")
  | some (.array values) => .ok (some values)
  | some _ =>
    .error (.badRequest "search_after must be an array of 1-2 sort values ([timestamp, _seq])")

def parseFieldRequest : Value → Except Refusal (PageRequest (List Value)) := parseWith parseAfterValues

/-- **The page of a search by fields**, which are resolved already. -/
def fieldPage (t : Texts) (layout : Layout) (now : Option ℤ) (published : List Split)
    (fields : List ResolvedSort) (body : Value) : Except Refusal (List Hit) := do
  let r ← parseFieldRequest body
  let splits ← searchedSplits now published r.query
  let cursor ← r.after.mapM (FieldCursor.parse t now fields)
  let answers ← splits.zipIdx.mapM fun p =>
    layout.answer now r.query fields cursor (r.start + r.size) p.1 p.2
  return ((answers.flatten.insertionSort (UpTo (cmpHit (ordersOf fields)))).drop r.start).take r.size

/-- **Paging**: page after page, until one is empty. -/
def fieldPages (t : Texts) (layout : Layout) (now : Option ℤ) (published : List Split) (query : Value)
    (fields : List ResolvedSort) (size n : ℕ) : Except Refusal (Option (List Hit)) :=
  follow (fun after => fieldPage t layout now published fields (pageBody query size after))
    (fun h => hitSortJson t fields h.position) n none

/-! ### The order of hits -/

instance : Std.TransCmp cmpAddress := by
  have hsplit := transCmp_comap (compare : ℕ → ℕ → Ordering) Hit.split
  have hsegment := transCmp_comap (compare : ℕ → ℕ → Ordering) Hit.segment
  have hrow := transCmp_comap (compare : ℕ → ℕ → Ordering) Hit.row
  exact inferInstanceAs (Std.TransCmp (compareLex (fun a b : Hit => compare a.split b.split)
    (compareLex (fun a b : Hit => compare a.segment b.segment) fun a b : Hit => compare a.row b.row)))

instance (orders : List FieldOrder) : Std.TransCmp (cmpHit orders) := by
  have hposition := transCmp_comap (cmpHits orders) Hit.position
  exact inferInstanceAs (Std.TransCmp (compareLex
    (fun a b : Hit => cmpHits orders a.position b.position) cmpAddress))

namespace Segment

variable {seg : Segment} {fields : List ResolvedSort}

theorem cmpRow_eq (row row' : Row) : seg.cmpRow fields row row' =
    (cmpHits (ordersOf fields) (seg.position fields row) (seg.position fields row')).then
      (compare row.id row'.id) := by
  rw [cmpRow, cmpRanked, cmpKeys_eq_cmpHits]
  rfl

theorem cmpHit_hit (split segment : ℕ) (row row' : Row) :
    cmpHit (ordersOf fields) (seg.hit fields split segment row) (seg.hit fields split segment row') =
      seg.cmpRow fields row row' := by
  rw [cmpRow_eq, cmpHit, cmpAddress]
  simp [hit]

instance : Std.TransCmp (seg.cmpRow fields) := by
  have hrows : seg.cmpRow fields = fun row row' =>
      cmpHit (ordersOf fields) (seg.hit fields 0 0 row) (seg.hit fields 0 0 row') := by
    grind [cmpHit_hit]
  rw [hrows]
  exact transCmp_comap _ _

end Segment

/-! ### A page is the first of what is past the cursor -/

theorem pairwise_zipIdx_ne {α : Type} (l : List α) : l.zipIdx.Pairwise fun p q => p.2 ≠ q.2 := by
  have hnodup : (l.zipIdx.map Prod.snd).Nodup := by
    rw [zipIdx_map_snd]
    exact nodup_range'
  exact pairwise_map.mp hnodup

namespace Segment

variable {seg : Segment} {fields : List ResolvedSort} {cursor : Option FieldCursor} {finds : Doc → Bool}

theorem pairwise_candidates : (seg.candidates fields cursor finds).Pairwise fun a b => a.id ≠ b.id :=
  List.Pairwise.sublist filter_sublist (pairwise_map.mpr (pairwise_zipIdx_ne seg.docs))

theorem apart_candidates : Apart (UpTo (seg.cmpRow fields)) (seg.candidates fields cursor finds) := by
  refine apart_upTo (List.Pairwise.imp ?_ pairwise_candidates)
  grind [cmpRow_eq]

theorem harvest_eq_first {limit : ℕ} (hlimit : 0 < limit) (split segment : ℕ) :
    seg.harvest fields cursor limit finds split segment = first (UpTo (cmpHit (ordersOf fields))) limit
        ((seg.candidates fields cursor finds).map (seg.hit fields split segment)) := by
  rw [harvest, collect, foldl_offer hlimit apart_candidates]
  refine map_first limit fun row _ row' _ => ?_
  rw [UpTo, UpTo, cmpHit_hit]

end Segment

namespace Layout

variable (layout : Layout) (now : Option ℤ) (query : Value) (fields : List ResolvedSort)

def splitHits (cursor : Option FieldCursor) (s : Split) (split : ℕ) : List Hit :=
  (layout.segments s).zipIdx.flatMap fun p =>
    (p.1.candidates fields cursor (s.finds now query)).map (p.1.hit fields split p.2)

def hits (cursor : Option FieldCursor) (splits : List Split) : List Hit :=
  splits.zipIdx.flatMap fun p => layout.splitHits now query fields cursor p.1 p.2

variable {layout now query fields} {cursor : Option FieldCursor}

theorem split_of_mem_splitHits {s : Split} {split : ℕ} {h : Hit}
    (hh : h ∈ layout.splitHits now query fields cursor s split) : h.split = split := by
  obtain ⟨p, _, hp⟩ := mem_flatMap.mp hh
  obtain ⟨row, _, rfl⟩ := mem_map.mp hp
  rfl

theorem pairwise_splitHits (s : Split) (split : ℕ) :
    (layout.splitHits now query fields cursor s split).Pairwise fun a b => cmpAddress a b ≠ .eq := by
  refine pairwise_flatMap.mpr ⟨fun p _ => pairwise_map.mpr ?_, ?_⟩
  · refine List.Pairwise.imp ?_ pairwise_candidates
    intro row row' hne heq
    simp only [cmpAddress, then_eq_eq, compare_eq_iff_eq] at heq
    exact hne heq.2.2
  · refine List.Pairwise.imp ?_ (pairwise_zipIdx_ne _)
    rintro p q hne a ha b hb heq
    obtain ⟨row, _, rfl⟩ := mem_map.mp ha
    obtain ⟨row', _, rfl⟩ := mem_map.mp hb
    simp only [cmpAddress, then_eq_eq, compare_eq_iff_eq] at heq
    exact hne heq.2.1

theorem pairwise_hits (splits : List Split) :
    (layout.hits now query fields cursor splits).Pairwise fun a b => cmpAddress a b ≠ .eq := by
  refine pairwise_flatMap.mpr ⟨fun p _ => pairwise_splitHits p.1 p.2, ?_⟩
  refine List.Pairwise.imp ?_ (pairwise_zipIdx_ne _)
  grind [split_of_mem_splitHits, cmpAddress]

theorem apart_of_addresses {l : List Hit} (h : l.Pairwise fun a b => cmpAddress a b ≠ .eq) :
    Apart (UpTo (cmpHit (ordersOf fields))) l := by
  refine apart_upTo (List.Pairwise.imp ?_ h)
  grind [cmpHit]

theorem merge_eq_first {limit : ℕ} (hlimit : 0 < limit) (s : Split) (split : ℕ) :
    layout.merge now query fields cursor limit s split = first (UpTo (cmpHit (ordersOf fields))) limit
        (layout.splitHits now query fields cursor s split) := by
  rw [merge]
  simp only [harvest_eq_first hlimit]
  exact first_flatMap (apart_of_addresses (pairwise_splitHits s split)) limit

end Layout

variable {query : Value} {fields : List ResolvedSort} {size : ℕ} {layout : Layout} {now : Option ℤ}
  {published splits : List Split}

theorem parseFieldRequest_pageBody (t : Texts) (hwindow : size ≤ maxResultWindow) (last : Option Position) :
    parseFieldRequest (pageBody query size (last.map (hitSortJson t fields))) = .ok ⟨query, 0, size,
        last.map fun p => sortJson t fields p.values ++ [intNumber p.millis, intNumber p.seq]⟩ := by
  refine parseWith_pageBody hwindow ?_
  cases last with
  | none => rfl
  | some p =>
    rw [Option.map_some, Option.map_some, hitSortJson]
    cases sortJson t fields p.values <;> rfl

theorem fieldPage_eq_first {t : Texts} (hsize : 1 ≤ size) (hwindow : size ≤ maxResultWindow)
    (hsplits : searchedSplits now published query = .ok splits)
    (haccept : ∀ s ∈ splits, ∃ q, translateQuery s.schema now query = .ok q) (last : Option Position)
    (hread : ∀ p ∈ last, parse t now fields
      (sortJson t fields p.values ++ [intNumber p.millis, intNumber p.seq]) = .ok p.cursor) :
    fieldPage t layout now published fields (pageBody query size (last.map (hitSortJson t fields))) =
      .ok (first (UpTo (cmpHit (ordersOf fields))) size
        (layout.hits now query fields (last.map Position.cursor) splits)) := by
  have hcursor : (last.map fun p => sortJson t fields p.values ++
      [intNumber p.millis, intNumber p.seq]).mapM (parse t now fields) =
        .ok (last.map Position.cursor) := by
    cases last with
    | none => rfl
    | some p =>
      rw [Option.map_some, Option.mapM_some, hread p rfl]
      rfl
  have hanswer : ∀ p ∈ splits.zipIdx,
      layout.answer now query fields (last.map Position.cursor) (0 + size) p.1 p.2 =
        .ok (first (UpTo (cmpHit (ordersOf fields))) size
          (layout.splitHits now query fields (last.map Position.cursor) p.1 p.2)) := by
    intro p hp
    obtain ⟨q, hq⟩ := haccept p.1 (fst_mem_of_mem_zipIdx hp)
    rw [answer, hq, zero_add, max_eq_left hsize]
    exact congrArg Except.ok (merge_eq_first hsize p.1 p.2)
  rw [fieldPage, parseFieldRequest_pageBody t hwindow last]
  simp only [bind, Except.bind, pure, Except.pure, hsplits, hcursor]
  rw [Except.mapM_eq_ok hanswer]
  exact congrArg Except.ok (first_flatMap (apart_of_addresses (pairwise_hits splits)) size)

/-! ### What is past a hit -/

namespace Layout

/-- The segment that the indices of a hit name. -/
def segmentOf (layout : Layout) (splits : List Split) (h : Hit) : Option Segment :=
  splits[h.split]?.bind fun s => (layout.segments s)[h.segment]?

theorem exists_segment {cursor : Option FieldCursor} {h : Hit}
    (hh : h ∈ layout.hits now query fields cursor splits) :
    ∃ seg, layout.segmentOf splits h = some seg ∧ h.position = seg.position fields ⟨h.doc, h.row⟩ := by
  obtain ⟨⟨s, i⟩, hp, hh⟩ := mem_flatMap.mp hh
  obtain ⟨⟨seg, j⟩, hq, hh⟩ := mem_flatMap.mp hh
  obtain ⟨row, -, rfl⟩ := mem_map.mp hh
  have hsplit : splits[i]? = some s := mk_mem_zipIdx_iff_getElem?.mp hp
  have hsegment : (layout.segments s)[j]? = some seg := mk_mem_zipIdx_iff_getElem?.mp hq
  exact ⟨seg, by simp [segmentOf, hit, hsplit, hsegment], rfl⟩

/-- Whether the segment of a hit takes it as past the cursor. -/
def takesPast (layout : Layout) (fields : List ResolvedSort) (cursor : Option FieldCursor)
    (splits : List Split) (h : Hit) : Bool :=
  (layout.segmentOf splits h).any fun seg => seg.afterCursor fields cursor (seg.ranked fields ⟨h.doc, h.row⟩)

theorem hits_eq_filter (cursor : Option FieldCursor) :
    layout.hits now query fields cursor splits =
      (layout.hits now query fields none splits).filter (layout.takesPast fields cursor splits) := by
  rw [hits, hits, filter_flatMap]
  refine flatMap_congr fun ⟨s, i⟩ hp => ?_
  rw [splitHits, splitHits, filter_flatMap]
  refine flatMap_congr fun ⟨seg, j⟩ hq => ?_
  have hsplit : splits[i]? = some s := mk_mem_zipIdx_iff_getElem?.mp hp
  have hsegment : (layout.segments s)[j]? = some seg := mk_mem_zipIdx_iff_getElem?.mp hq
  rw [filter_map, candidates, candidates, filter_filter]
  refine congrArg _ (filter_congr fun row _ => ?_)
  simp [takesPast, segmentOf, hit, hsplit, hsegment, afterCursor, Bool.and_comm]

/-- The segment of a hit puts it past the cursor exactly if its values do. -/
def Settles (layout : Layout) (fields : List ResolvedSort) (splits : List Split) (c : FieldCursor) (h : Hit) :
    Prop :=
  ∀ seg ∈ layout.segmentOf splits h, seg.SettlesPast fields c ⟨h.doc, h.row⟩

instance (layout : Layout) (fields : List ResolvedSort) (splits : List Split) (c : FieldCursor) (h : Hit) :
    Decidable (layout.Settles fields splits c h) :=
  inferInstanceAs (Decidable (∀ seg ∈ layout.segmentOf splits h, seg.SettlesPast fields c ⟨h.doc, h.row⟩))

theorem takesPast_iff {c : FieldCursor} {h : Hit} (hh : h ∈ layout.hits now query fields none splits)
    (hsettles : layout.Settles fields splits c h) :
    layout.takesPast fields (some c) splits h = true ↔
      cmpHits (ordersOf fields) h.position (c.against h.position) = .gt := by
  obtain ⟨seg, hrow, hposition⟩ := exists_segment hh
  rw [hposition, ← cmpCursor_gt_iff (hsettles seg hrow)]
  simp [takesPast, hrow, afterCursor]

end Layout

theorem eq_of_cmpHits_eq {orders : List FieldOrder} {p q : Position}
    (hp : p.values.length = orders.length) (hq : q.values.length = orders.length)
    (h : cmpHits orders p q = .eq) : p = q := by
  obtain ⟨pv, pm, ps⟩ := p
  obtain ⟨qv, qm, qs⟩ := q
  simp only [cmpHits, cmpTiebreak, then_eq_eq, compare_eq_iff_eq] at h
  obtain ⟨hvalues, rfl, rfl⟩ := h
  have heq : ∀ (orders : List FieldOrder) (vs ws : List SortValue), vs.length = orders.length →
      ws.length = orders.length →
      clauses .missing (orders.map FieldOrder.cmpValue) vs ws = .eq → vs = ws := by
    intro orders
    induction orders with
    | nil =>
      grind
    | cons o orders ih =>
      intro vs ws hvs hws heq
      obtain ⟨v, vs, rfl⟩ := exists_cons_of_length_eq_add_one hvs
      obtain ⟨w, ws, rfl⟩ := exists_cons_of_length_eq_add_one hws
      rw [map_cons, clauses, then_eq_eq, headD_cons, headD_cons, FieldOrder.cmpValue_eq_eq_iff] at heq
      grind
  rw [heq orders pv qv hp hq hvalues]

/-- The matches of a search in the order of the results. -/
def Layout.results (layout : Layout) (now : Option ℤ) (query : Value) (fields : List ResolvedSort)
    (splits : List Split) : List Hit :=
  (layout.hits now query fields none splits).insertionSort (UpTo (cmpHit (ordersOf fields)))

/-- **The condition** on a paging.  The requests are answered and nothing is pruned, and no two matches are
at one position.  The last hit of each page can be read back; and of the matches up to the end of the next
page, each segment puts its own past that hit exactly if their values do. -/
def FieldPageable (layout : Layout) (now : Option ℤ) (published : List Split) (query : Value)
    (fields : List ResolvedSort) (size : ℕ) : Prop :=
  size ≤ maxResultWindow ∧ ∃ i splits, extractTimeBounds now query = .ok i ∧
    searchedSplits now published query = .ok splits ∧
    (∀ s ∈ splits, ∃ q, translateQuery s.schema now query = .ok q) ∧
    NothingPruned now published query i ∧
    ((layout.hits now query fields none splits).map Hit.position).Nodup ∧
    ∀ m ≤ (layout.results now query fields splits).length, 0 < m →
      size ∣ m ∨ m = (layout.results now query fields splits).length →
      ∀ e ∈ (layout.results now query fields splits)[m - 1]?, e.position.Readable ∧
        ∀ h ∈ (layout.results now query fields splits).take (m + size),
          layout.Settles fields splits e.position.cursor h

section Past

variable {layout : Layout} {now : Option ℤ} {query : Value} {fields : List ResolvedSort}
  {splits : List Split}

variable {h e : Hit} {cursor : Option FieldCursor}

theorem length_position (hh : h ∈ layout.hits now query fields cursor splits) :
    h.position.values.length = (ordersOf fields).length := by
  obtain ⟨seg, -, hposition⟩ := exists_segment hh
  simp [hposition, ordersOf, position]

theorem before_hit_iff (he : e ∈ layout.hits now query fields none splits)
    (hh : h ∈ layout.hits now query fields none splits)
    (hdistinct : ((layout.hits now query fields none splits).map Hit.position).Nodup) :
    Before (UpTo (cmpHit (ordersOf fields))) e h ↔
      cmpHits (ordersOf fields) e.position h.position = .lt := by
  rw [before_upTo_iff, cmpHit, then_eq_lt]
  refine or_iff_left ?_
  rintro ⟨heq, haddress⟩
  have hposition := eq_of_cmpHits_eq (length_position he) (length_position hh) heq
  obtain rfl : e = h := inj_on_of_nodup_map hdistinct he hh hposition
  grind

/-- The results are in strict order. -/
theorem pairwise_results (hdistinct : ((layout.hits now query fields none splits).map Hit.position).Nodup) :
    (layout.results now query fields splits).Pairwise fun a b =>
      cmpHits (ordersOf fields) a.position b.position = .lt := by
  refine (pairwise_before_insertionSort (apart_of_addresses (pairwise_hits splits))).imp_of_mem
    fun {a b} ha hb hbefore => ?_
  exact (before_hit_iff ((mem_insertionSort _).mp ha) ((mem_insertionSort _).mp hb) hdistinct).mp hbefore

/-- The page past the last hit of the page before. -/
theorem first_hits_cursor {m : ℕ}
    (hdistinct : ((layout.hits now query fields none splits).map Hit.position).Nodup)
    (he : (layout.results now query fields splits)[m - 1]? = some e) (hm : 0 < m)
    (hsettles : ∀ h ∈ (layout.results now query fields splits).take (m + size),
      layout.Settles fields splits e.position.cursor h) :
    first (UpTo (cmpHit (ordersOf fields))) size
        (layout.hits now query fields (some e.position.cursor) splits) =
      ((layout.results now query fields splits).drop m).take size := by
  have hsorted := pairwise_results hdistinct
  have htakes : ∀ h ∈ (layout.results now query fields splits).take (m + size),
      (layout.takesPast fields (some e.position.cursor) splits h = true ↔
        cmpHits (ordersOf fields) h.position e.position = .gt) := fun h hh =>
    takesPast_iff ((mem_insertionSort _).mp (mem_of_mem_take hh)) (hsettles h hh)
  obtain ⟨hlt, rfl⟩ := List.getElem?_eq_some_iff.mp he
  rw [hits_eq_filter]
  refine first_filter_eq (apart_of_addresses (pairwise_hits splits)) (fun h hh => ?_) fun h hh => ?_
  · -- at the cursor or before it
    change h ∈ (layout.results now query fields splits).take m at hh
    obtain ⟨i, hi, rfl⟩ := mem_take_iff_getElem.mp hh
    rw [← Bool.not_eq_true, htakes _ (mem_take_iff_getElem.mpr ⟨i, by omega, rfl⟩)]
    rcases lt_or_eq_of_le (show i ≤ m - 1 by omega) with hbefore | rfl
    · exact fun hgt => by
        have hlt := pairwise_iff_getElem.mp hsorted i (m - 1) (by omega) (by omega) hbefore
        exact absurd (hlt.symm.trans hgt) (by decide)
    · exact fun hgt => absurd (hgt.symm.trans Std.ReflCmp.compare_self) (by decide)
  · change h ∈ ((layout.results now query fields splits).drop m).take size at hh
    obtain ⟨i, hi, rfl⟩ := mem_take_iff_getElem.mp hh
    rw [length_drop] at hi
    rw [getElem_drop, htakes _ (mem_take_iff_getElem.mpr ⟨m + i, by omega, rfl⟩),
      Std.OrientedCmp.gt_iff_lt]
    exact pairwise_iff_getElem.mp hsorted (m - 1) (m + i) (by omega) (by omega) (by omega)

theorem parse_position (t : Texts) (now : Option ℤ) (seg : Segment) (row : Row)
    (hextreme : ∀ v ∈ (seg.position fields row).values, ¬ v.Extreme) :
    parse t now fields (sortJson t fields (seg.position fields row).values ++
      [intNumber row.doc.millis, intNumber row.doc.seqKey]) = .ok ⟨(seg.position fields row).values,
        some row.doc.millis, some (if row.doc.seqKey = i64Max then -1 else row.doc.seqKey)⟩ :=
  parse_hitSortJson t now (seg.position_ofTypes fields row) hextreme row.doc.safe
    ⟨row.doc.neg_one_le_seqKey, Int.le_sub_one_of_lt row.doc.seqKey_lt⟩

theorem parse_of_readable {t : Texts} (he : e ∈ layout.hits now query fields none splits)
    (hread : e.position.Readable) : parse t now fields
      (sortJson t fields e.position.values ++ [intNumber e.position.millis, intNumber e.position.seq]) =
        .ok e.position.cursor := by
  obtain ⟨seg, -, hposition⟩ := exists_segment he
  rw [hposition] at hread ⊢
  have hseq : ¬ e.doc.seqKey = i64Max := hread.2
  have hparse := parse_position t now seg ⟨e.doc, e.row⟩ hread.1
  rw [if_neg hseq] at hparse
  exact hparse

theorem map_doc_hits : (layout.hits now query fields none splits).map Hit.doc =
    splits.flatMap (Split.found now query) := by
  have hsegment : ∀ (s : Split) (seg : Segment) (i j : ℕ),
      ((seg.candidates fields none (s.finds now query)).map (seg.hit fields i j)).map Hit.doc =
        seg.docs.filter (s.finds now query) := by
    intro s seg i j
    have hdocs : seg.docs = seg.rows.map Row.doc := by
      rw [rows, map_map]
      exact (zipIdx_map_fst 0 seg.docs).symm
    rw [hdocs, filter_map, map_map]
    refine congrArg _ (filter_congr fun row _ => ?_)
    exact Bool.and_true _
  have hsplit : ∀ (s : Split) (i : ℕ),
      (layout.splitHits now query fields none s i).map Hit.doc = s.found now query := by
    intro s i
    rw [splitHits, map_flatMap]
    simp only [hsegment]
    rw [← flatMap_map Prod.fst fun seg : Segment => seg.docs.filter (s.finds now query),
      zipIdx_map_fst, ← filter_flatMap, layout.parts, Split.found]
  rw [hits, map_flatMap]
  simp only [hsplit]
  rw [← flatMap_map Prod.fst (Split.found now query), zipIdx_map_fst]

end Past

/-! ### One search -/

/-- **The heaps and the merges give the first `limit` matches past the cursor**, in the order of the
values, where no clause has a substitute. -/
theorem merges_eq_first_past (layout : Layout) (now : Option ℤ) (query : Value)
    {fields : List ResolvedSort} (hsub : ∀ sort ∈ fields, sort.substitute = none)
    (cursor : Option FieldCursor) {limit : ℕ} (hlimit : 1 ≤ limit) (splits : List Split) :
    ((splits.zipIdx.flatMap fun p => layout.merge now query fields cursor limit p.1 p.2).insertionSort
      (UpTo (cmpHit (ordersOf fields)))).take limit =
    first (UpTo (cmpHit (ordersOf fields))) limit ((layout.hits now query fields none splits).filter
      fun h => cursor.all fun c => cmpHits (ordersOf fields) h.position (c.against h.position) == .gt) := by
  have hpast : layout.hits now query fields cursor splits = (layout.hits now query fields none splits).filter
      fun h => cursor.all fun c => cmpHits (ordersOf fields) h.position (c.against h.position) == .gt := by
    rw [Layout.hits_eq_filter]
    refine filter_congr fun h hh => ?_
    cases cursor with
    | none =>
      obtain ⟨seg, hrow, -⟩ := Layout.exists_segment hh
      simp [Layout.takesPast, hrow, afterCursor]
    | some c =>
      rw [Option.all_some, Bool.eq_iff_iff, beq_iff_eq]
      exact Layout.takesPast_iff hh fun seg _ => seg.settlesPast_of_plain hsub c _
  rw [← hpast]
  simp only [Layout.merge_eq_first hlimit]
  exact first_flatMap (Layout.apart_of_addresses (Layout.pairwise_hits splits)) limit

def byLong : ResolvedSort where
  field := "long"
  ty := .long
  desc := false
  useMax := false
  nullIsMax := true
  substitute := none
  substitute_ofType := by simp

/-- Every split is one segment, each document of which has the largest number. -/
def largestLong : Layout where
  segments s := [{
    docs := s.docs
    column := fun sort => if sort.ty = .long then .i64 fun _ => [i64Max] else .none
    fits := by
      intro sort
      split_ifs with h
      · exact ⟨.inl h, by simp [i64Max, i64Min]⟩
      · trivial }]
  parts _ := append_nil _

def byWord : ResolvedSort where
  field := "word"
  ty := .keyword
  desc := false
  useMax := false
  nullIsMax := true
  substitute := none
  substitute_ofType := by simp

/-- The first document of a split has the word "c", in a segment of its own; of the others every second one
has the word "b". -/
def wordColumns : Layout where
  segments s := [
    { docs := s.docs.take 1
      column := fun sort => if sort.ty = .keyword then
        .str (.ofTerms ["a", "c"] (by decide) (by decide)) fun _ => [⟨1, by decide⟩] else .none
      fits := by
        intro sort
        split_ifs with h
        · exact h
        · trivial },
    { docs := s.docs.drop 1
      column := fun sort => if sort.ty = .keyword then
        .str (.ofTerms ["b"] (by decide) (by decide)) fun doc =>
          if doc % 2 = 0 then [⟨0, by decide⟩] else [] else .none
      fits := by
        intro sort
        split_ifs with h
        · exact h
        · trivial }]
  parts s := by simp only [flatMap_cons, flatMap_nil, append_nil, take_append_drop]

def fourDocuments : Split where
  docs := [⟨1200000, some 2, .object [], by decide, by decide⟩,
    ⟨1300000, some 3, .object [], by decide, by decide⟩,
    ⟨1400000, some 4, .object [], by decide, by decide⟩,
    ⟨1250000, some 5, .object [], by decide, by decide⟩]
  timeStart := 1200000
  timeEnd := 1400000
  schema := timestampOnly
  hasSeq := true
  hidden _ := false
  covers := by decide
  fits := by decide
  seqs := by decide

/-- A page of three past the word "b" at the time of a document that has it: an older one with the word, and
the two with "c", the newer one first. -/
theorem merges_eq_first_past_words :
    (([fourDocuments, oneDocument].zipIdx.flatMap fun p => wordColumns.merge none betweenSeconds [byWord]
        (some ⟨[.str "b"], some 1300000, none⟩) 3 p.1 p.2).insertionSort
      (UpTo (cmpHit (ordersOf [byWord])))).take 3 =
    first (UpTo (cmpHit (ordersOf [byWord]))) 3
      ((wordColumns.hits none betweenSeconds [byWord] none [fourDocuments, oneDocument]).filter fun h =>
        (some (⟨[.str "b"], some 1300000, none⟩ : FieldCursor)).all fun c =>
          cmpHits (ordersOf [byWord]) h.position (c.against h.position) == .gt) ∧
    ((([fourDocuments, oneDocument].zipIdx.flatMap fun p => wordColumns.merge none betweenSeconds [byWord]
        (some ⟨[.str "b"], some 1300000, none⟩) 3 p.1 p.2).insertionSort
      (UpTo (cmpHit (ordersOf [byWord])))).take 3).map (fun h => h.doc.seq) = [some 5, some 1, some 2] :=
  ⟨merges_eq_first_past wordColumns none betweenSeconds (forall_mem_singleton.mpr rfl) _ (by decide) _,
    by decide +kernel⟩

theorem fieldPages_complete {t : Texts} (hsize : 1 ≤ size)
    (h : FieldPageable layout now published query fields size) :
    ∃ n hits, fieldPages t layout now published query fields size n = .ok (some hits) ∧
      (hits.map Hit.doc).Perm (published.flatMap (Split.found now query)) ∧
      hits.Pairwise fun a b => cmpHits (ordersOf fields) a.position b.position = .lt := by
  obtain ⟨hwindow, i, splits, hscan, hsplits, haccept, hpruned, hdistinct, hends⟩ := h
  refine ⟨_, layout.results now query fields splits,
    follow_eq_of_ends hsize (Nat.lt_succ_self _) ?_ ?_, ?_, pairwise_results hdistinct⟩
  · exact fieldPage_eq_first hsize hwindow hsplits haccept none nofun
  · intro m e hm hend he
    have hlt := (List.getElem?_eq_some_iff.mp he).1
    obtain ⟨hread, hsettles⟩ := hends m (by omega) hm hend e he
    have hhit : e ∈ layout.hits now query fields none splits :=
      (mem_insertionSort _).mp (mem_of_getElem? he)
    rw [← first_hits_cursor hdistinct he hm hsettles]
    refine fieldPage_eq_first hsize hwindow hsplits haccept (some e.position) ?_
    rintro p ⟨⟩
    exact parse_of_readable hhit hread
  · have hperm := found_perm hscan hsplits
    rw [nothingPruned_iff_flatMap.mp hpruned, append_nil] at hperm
    refine Perm.trans ?_ hperm.symm
    rw [← @map_doc_hits layout now query fields splits]
    exact (perm_insertionSort _ _).map _

def byKeyword (desc : Bool) : ResolvedSort where
  field := "keyword"
  ty := .keyword
  desc := desc
  useMax := desc
  nullIsMax := true
  substitute := some (.str "m")
  substitute_ofType := by
    rintro v ⟨⟩
    trivial

def soleTerm : Dictionary := .ofTerms ["a"] (pairwise_singleton _ _) (by decide)

/-- Each split is one segment.  In one from before there was `_seq` every document has the keyword "a";
another has no such column. -/
def legacyColumn : Layout where
  segments s := [{
    docs := s.docs
    column := fun sort =>
      if sort.ty = .keyword ∧ s.hasSeq = false then .str soleTerm fun _ => [⟨0, Nat.one_pos⟩] else .none
    fits := by
      intro sort
      split_ifs with h
      · exact h.1
      · trivial }]
  parts _ := append_nil _

def pastLegacy : FieldCursor := ⟨[.str "a"], some 1500000, some (-1)⟩

end RSearch.Search
