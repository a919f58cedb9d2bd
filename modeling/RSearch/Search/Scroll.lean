import RSearch.Lib.Runs
import RSearch.Search.Page

/-!
# Scrolls

A continuation of a scroll reads the sort values of the last hit from the context, searches past them,
and writes those of its own last hit back.  Two continuations may overlap, so the stored cursor can go
back; it never runs ahead of what was sent (`Covered`).
-/

namespace RSearch.Search

open List Json TopK Runs

/-- The hit whose sort values are stored, those that continuations in flight read, and what was sent. -/
structure Scroll where
  cursor : Option Doc
  reading : List (Option Doc)
  sent : List Doc

inductive ScrollCall where
  | getScroll
  /-- The search and the update of the context; a page that is not answered is lost. -/
  | advanceScroll (i : ℕ) (answered : Bool)

def ScrollCall.answered : ScrollCall → Bool
  | .getScroll => true
  | .advanceScroll _ answered => answered

def Scroll.opened (page : List Doc) : Scroll := ⟨page.getLast?, [], page⟩

section

variable (now : Option ℤ) (published : List Split) (desc : Bool) (query : Value) (size : ℕ)

/-- Where the first page had no hits nothing follows. -/
def scrollPage : Option Doc → Except Refusal (List Doc)
  | none => .ok []
  | some e => searchPage now published desc (pageBody query size (some e.sortValues))

/-- A call that fails, or whose context is gone, takes no further step. -/
def Scroll.step (s : Scroll) : ScrollCall → Option Scroll
  | .getScroll => some { s with reading := s.reading ++ [s.cursor] }
  | .advanceScroll i answered => do
    match scrollPage now published desc query size (← s.reading[i]?) with
    | .error _ => none
    | .ok page => some ⟨page.getLast?.or s.cursor, s.reading.eraseIdx i,
        if answered then s.sent ++ page else s.sent⟩

end

/-- **A cursor does not run ahead**: what has not been sent comes after it. -/
def Covered (desc : Bool) (found sent : List Doc) (cursor : Option Doc) : Prop :=
  ∀ d ∈ found, d ∈ sent ∨ ∃ e ∈ cursor, Before (Ranks desc) e d

variable {now : Option ℤ} {published : List Split} {desc : Bool} {query : Value} {size : ℕ}
  {found left sent page : List Doc} {cursor : Option Doc} {s s' : Scroll}

theorem Covered.append (h : Covered desc found sent cursor) (page : List Doc) :
    Covered desc found (sent ++ page) cursor :=
  fun d hd => (h d hd).imp_left (mem_append_left _)

section

variable (hsize : 1 ≤ size)
include hsize

/-- A page is the first of what is left: its last hit leaves nothing behind, and it is empty at the end. -/
theorem covered_first (happart : Apart (Ranks desc) left) (hleft : ∀ d ∈ found, d ∈ sent ∨ d ∈ left)
    (hpage : page = first (Ranks desc) size left) (cursor : Option Doc) :
    Covered desc found (sent ++ page) (page.getLast?.or cursor) ∧ (page = [] → found ⊆ sent) := by
  simp only [← mem_insertionSort (Ranks desc) (l := left)] at hleft
  -- A page of at least one hit is empty only if nothing was left.
  have hend : page = [] → found ⊆ sent := by
    intro hnil d hd
    rw [(take_eq_nil_iff.mp (hpage.symm.trans hnil)).resolve_left (by omega)] at hleft
    exact (hleft d hd).resolve_right not_mem_nil
  refine ⟨fun d hd => ?_, hend⟩
  cases hlast : page.getLast? with
  | none => exact .inl (mem_append_left _ (hend (getLast?_eq_none_iff.mp hlast) hd))
  | some e =>
    rw [insertionSort_eq_first_append happart (hpage ▸ hlast), ← hpage] at hleft
    -- What was left is the page and what comes after its last hit.
    rcases hleft d hd with hsent | hmem
    · exact .inl (mem_append_left _ hsent)
    · refine (mem_append.mp hmem).imp (mem_append_right _) fun hpast => ⟨e, rfl, ?_⟩
      exact of_decide_eq_true (mem_filter.mp ((mem_insertionSort _).mp hpast)).2

variable (happart : Apart (Ranks desc) found)
  (hpage : ∀ e : Doc, searchPage now published desc (pageBody query size (some e.sortValues)) =
    .ok (first (Ranks desc) size (past (Ranks desc) e found)))
include happart hpage

theorem Covered.scrollPage (h : Covered desc found sent cursor)
    (hok : scrollPage now published desc query size cursor = .ok page) (stored : Option Doc) :
    Covered desc found (sent ++ page) (page.getLast?.or stored) ∧ (page = [] → found ⊆ sent) := by
  cases cursor with
  | none =>
    cases hok
    have hall : found ⊆ sent := fun d hd => (h d hd).resolve_right (by simp)
    exact ⟨fun d hd => .inl (mem_append_left _ (hall hd)), fun _ => hall⟩
  | some e =>
    cases (hpage e).symm.trans hok
    refine covered_first hsize (happart.sublist filter_sublist) (fun d hd => (h d hd).imp_right ?_) rfl _
    rintro ⟨_, ⟨⟩, hbefore⟩
    exact mem_filter.mpr ⟨hd, decide_eq_true hbefore⟩

theorem covered_step {call : ScrollCall} (hcall : call.answered = true)
    (hstep : s.step now published desc query size call = some s')
    (h : ∀ c ∈ s.cursor :: s.reading, Covered desc found s.sent c) :
    ∀ c ∈ s'.cursor :: s'.reading, Covered desc found s'.sent c := by
  obtain ⟨hstored, hreading⟩ := forall_mem_cons.mp h
  cases call with
  | getScroll =>
    cases hstep
    have hmore := forall_mem_append.mpr ⟨hreading, forall_mem_singleton.mpr hstored⟩
    exact forall_mem_cons.mpr ⟨hstored, hmore⟩
  | advanceScroll i answered =>
    obtain ⟨read, hread, hstep⟩ := Option.bind_eq_some_iff.mp hstep
    split at hstep
    · cases hstep
    next page hok =>
      cases hstep
      obtain rfl : answered = true := hcall
      -- The cursor that is stored now may come before the one that was.
      have hpages := (hreading read (mem_of_getElem? hread)).scrollPage hsize happart hpage hok s.cursor
      exact forall_mem_cons.mpr ⟨hpages.1, fun c hc => (hreading c (mem_of_mem_eraseIdx hc)).append page⟩

end

/-- **A scroll loses no hit.**  However its continuations are interleaved, and whichever fail: as long as no
page is lost after the update, every match up to the stored cursor has been sent, and a continuation that
finds no more hits does so when all have been. -/
theorem scroll_loses_nothing (hsize : 1 ≤ size) (hdistinct : DistinctPositions published)
    (hpageable : Pageable now published query size)
    (hopen : searchPage now published desc (pageBody query size none) = .ok page) {calls : List ScrollCall}
    (hanswered : Along (Scroll.step now published desc query size) (fun _ call => call.answered = true)
      (.opened page) calls)
    (hrun : run (Scroll.step now published desc query size) (.opened page) calls = some s) :
    Covered desc (published.flatMap (Split.found now query)) s.sent s.cursor ∧
      ∀ cursor ∈ s.reading, scrollPage now published desc query size cursor = .ok [] →
        published.flatMap (Split.found now query) ⊆ s.sent := by
  obtain ⟨hwindow, i, splits, hscan, hsplits, haccept, hpruned⟩ := hpageable
  have hperm := found_perm hscan hsplits
  -- Nothing is pruned: the splits that are searched have every match.
  rw [nothingPruned_iff_flatMap.mp hpruned, append_nil] at hperm
  have happart : Apart (Ranks desc) (splits.flatMap (Split.found now query)) :=
    ((apart_of_distinct desc hdistinct).sublist (flatMap_sublist fun s _ => filter_sublist)).perm hperm
  have hfirst := searchPage_eq_first hsize hwindow hsplits haccept happart
  have hpage : ∀ e : Doc, searchPage now published desc (pageBody query size (some e.sortValues)) =
      .ok (first (Ranks desc) size (past (Ranks desc) e (splits.flatMap (Split.found now query)))) := by
    intro e
    rw [past, filter_flatMap]
    exact hfirst (some e)
  cases (hfirst none).symm.trans hopen
  have hopened := (@covered_first desc size _ _ [] _ hsize happart (fun d hd => .inr hd) rfl none).1
  rw [Option.or_none] at hopened
  obtain ⟨hstored, hreading⟩ := forall_mem_cons.mp (run_invariant _
    (I := fun s => ∀ c ∈ s.cursor :: s.reading, Covered desc _ s.sent c)
    (fun _ _ _ h hcall hstep => covered_step hsize happart hpage hcall hstep h)
    (forall_mem_singleton.mpr hopened) hanswered hrun)
  refine ⟨fun d hd => hstored d (hperm.subset hd), fun cursor hc hok d hd => ?_⟩
  exact ((hreading cursor hc).scrollPage hsize happart hpage hok none).2 rfl (hperm.subset hd)

def twoReaders : List ScrollCall :=
  [.getScroll, .getScroll, .advanceScroll 0 true, .advanceScroll 0 true, .getScroll]

/-- Two continuations read the context at the same time, and the second hit is sent twice. -/
theorem scroll_loses_nothing_twoReaders :
    ∃ s, run (Scroll.step none [oneDocument, legacyDocument] true betweenSeconds 1)
        (.opened [atFifteenHundred]) twoReaders = some s ∧
      s.sent = [atFifteenHundred, atFifteenHundredLegacy, atFifteenHundredLegacy] ∧
      [oneDocument, legacyDocument].flatMap (Split.found none betweenSeconds) ⊆ s.sent := by
  have hpageable : Pageable none [oneDocument, legacyDocument] betweenSeconds 1 := by
    refine ⟨by decide, ⟨some 1000000, some 2000000⟩, _, rfl, rfl, fun s hs => ⟨_, rfl⟩, ?_⟩
    intro s hs hout
    rcases mem_pair.mp hs with rfl | rfl <;> cases hout
  have hall := @scroll_loses_nothing none _ true _ _ _ _ le_rfl (by decide) hpageable rfl twoReaders
    (by decide) rfl
  exact ⟨_, rfl, rfl, hall.2 _ mem_cons_self rfl⟩

end RSearch.Search
