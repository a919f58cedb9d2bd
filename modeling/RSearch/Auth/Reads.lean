import RSearch.Auth.Scope
import RSearch.Lib.Glob
import RSearch.Lib.Percent

/-!
# The stream a read request acts on

The middleware matches the first segment of a read route's raw path against the identity's patterns; the
handler acts on the segment percent-decoded once.  A greedy search for its pieces finds exactly the
names a pattern covers.
-/

namespace RSearch.Auth

open List Option Glob String Bytes

/-! ### What the greedy search finds -/

variable {cs rest : List Char} {pattern stream path name method raw : String} {after : List String}
  {handler : ReadHandler} {call : ReadCall}

theorem eq_of_afterFirst {piece : List Char} (h : afterFirst piece cs = some rest) :
    ∃ skipped, cs = skipped ++ (piece ++ rest) := by
  induction cs with
  | nil =>
    grind [afterFirst]
  | cons c cs ih =>
    rw [afterFirst] at h
    split_ifs at h with hpiece
    · cases h
      refine ⟨[], ?_⟩
      exact (prefix_iff_eq_append.mp hpiece).symm
    · grind

theorem afterFirst_append (skipped piece rest : List Char) :
    ∃ found, afterFirst piece (skipped ++ (piece ++ rest)) = some found ∧ rest <:+ found := by
  induction skipped with
  | nil =>
    cases hcs : piece ++ rest with
    | nil =>
      obtain ⟨rfl, rfl⟩ := append_eq_nil_iff.mp hcs
      exact ⟨[], rfl, suffix_rfl⟩
    | cons c cs =>
      refine ⟨rest, ?_, suffix_rfl⟩
      grind [afterFirst]
  | cons c skipped ih =>
    grind [afterFirst]

def joinPieces (pieces : List (List Char)) (last : List Char) : List Char :=
  pieces.foldr (fun piece pattern => piece ++ '*' :: pattern) last

theorem afterPieces_iff {pieces : List (List Char)} {last : List Char}
    (hpieces : ∀ piece ∈ pieces, '*' ∉ piece) (hlast : '*' ∉ last) :
    (∃ rest, afterPieces pieces cs = some rest ∧ last <:+ rest) ↔
      Covers '*' ('*' :: joinPieces pieces last) cs := by
  induction pieces generalizing cs with
  | nil =>
    rw [joinPieces, foldr_nil, covers_star_literal_iff hlast]
    simp [afterPieces]
  | cons piece pieces ih =>
    obtain ⟨hpiece, hrest⟩ := forall_mem_cons.mp hpieces
    have hjoin : joinPieces (piece :: pieces) last = piece ++ '*' :: joinPieces pieces last := rfl
    rw [hjoin, covers_star_append_iff hpiece]
    constructor
    · rintro ⟨rest, h, hsuffix⟩
      obtain ⟨found, hfound, hleft⟩ := bind_eq_some_iff.mp h
      grind [eq_of_afterFirst]
    · rintro ⟨skipped, rest, rfl, hcovers⟩
      obtain ⟨found, hfound, hsuffix⟩ := afterFirst_append skipped piece rest
      obtain ⟨left, h, hleft⟩ := (ih hrest).mpr (hcovers.of_suffix hsuffix)
      exact ⟨left, bind_eq_some_iff.mpr ⟨found, hfound, h⟩, hleft⟩

/-! ### A pattern and its pieces -/

theorem intercalate_pieces (first : List Char) (mids : List (List Char)) (last : List Char) :
    ['*'].intercalate (first :: (mids ++ [last])) = first ++ '*' :: joinPieces mids last := by
  induction mids generalizing first with
  | nil => simp [joinPieces]
  | cons mid mids ih =>
    have := ih mid
    simp only [List.intercalate, cons_append, intersperse_cons_cons, flatten_cons] at this ⊢
    rw [this]
    rfl

theorem exists_pieces {pattern : List Char} (h : '*' ∈ pattern) :
    ∃ first mids last, pattern.splitOn '*' = first :: (mids ++ [last]) ∧
      pattern = first ++ '*' :: joinPieces mids last := by
  have hback : ['*'].intercalate (pattern.splitOn '*') = pattern := intercalate_splitOn '*'
  have hparts := @notMem_of_mem_splitOn _ _ '*' pattern
  cases hsplit : pattern.splitOn '*' with
  | nil => exact absurd hsplit (splitOnP_ne_nil _ _)
  | cons first rest =>
    rw [hsplit] at hback hparts
    rcases eq_nil_or_concat rest with rfl | ⟨mids, last, rfl⟩
    · have heq : first = pattern := by simpa [List.intercalate] using hback
      grind
    · grind [intercalate_pieces]

theorem streamGlobMatches_iff :
    streamGlobMatches pattern stream = true ↔
      Covers '*' pattern.toList stream.toList := by
  unfold streamGlobMatches
  by_cases hstar : '*' ∈ pattern.toList
  · obtain ⟨first, mids, last, hsplit, hpattern⟩ := exists_pieces hstar
    have hparts := @notMem_of_mem_splitOn _ _ '*' pattern.toList
    rw [hsplit] at hparts
    have hfirst : '*' ∉ first := hparts first mem_cons_self
    have hmids : ∀ piece ∈ mids, '*' ∉ piece := fun piece hpiece =>
      hparts piece (by simp [hpiece])
    have hlast : '*' ∉ last := hparts last (by simp)
    rw [if_neg (not_not.mpr hstar), hsplit]
    rw [hpattern, covers_append_iff hfirst]
    simp only [headD_cons, tail_cons, dropLast_concat, getLastD_cons, getLastD_concat]
    by_cases hprefix : first <+: stream.toList
    · obtain ⟨rest, hrest⟩ := hprefix
      rw [← hrest, if_neg (not_not.mpr (prefix_append first rest)), drop_left]
      simp only [append_cancel_left_eq, exists_eq_left', ← afterPieces_iff hmids hlast]
      cases afterPieces mids rest <;> simp
    · grind
  · rw [if_pos hstar, covers_literal_iff hstar, beq_iff_eq, toList_inj]
    exact eq_comm

/-! ### Read routes -/

open Bytes (percentDecode utf8 fromUtf8 HasEscape)

/-- A path parameter, as a handler gets it: never empty, with its percent encoding undone once, and
refused when the result is no text. -/
def pathParam (segment : String) : Option String :=
  if segment = "" then none else fromUtf8 (percentDecode (utf8 segment))

inductive ReadHandler where
  | search
  | count
  | getDoc (id : String)
  | headDoc (id : String)
  | getSource (id : String)
  | getMapping
  | getSettings
  | getIndex
  | headIndex
  deriving DecidableEq

/-- The handler of a method and of the segments after the index.  A handler for `GET` answers `HEAD`
as well where nothing else does. -/
def readHandler (method : String) : List String → Option ReadHandler
  | [] =>
    if method = "GET" then some .getIndex
    else if method = "HEAD" then some .headIndex
    else none
  | [a] =>
    if a = "_search" ∧ method ∈ ["GET", "HEAD", "POST"] then some .search
    else if a = "_count" ∧ method ∈ ["GET", "HEAD", "POST"] then some .count
    else if a = "_mapping" ∧ method ∈ ["GET", "HEAD"] then some .getMapping
    else if a = "_settings" ∧ method ∈ ["GET", "HEAD"] then some .getSettings
    else none
  | [a, d] => do
    let id ← pathParam d
    if a = "_doc" ∧ method = "GET" then some (.getDoc id)
    else if a = "_doc" ∧ method = "HEAD" then some (.headDoc id)
    else if a = "_source" ∧ method ∈ ["GET", "HEAD"] then some (.getSource id)
    else none
  | _ => none

def ownRoutes : List String := ["health", "ready", "metrics", "_bulk", "_msearch", "_refresh"]

/-- A read request at its handler: the index as it was sent, and as the handler has it. -/
structure ReadCall where
  handler : ReadHandler
  raw : String
  index : String
  deriving DecidableEq

open ReadCall

def readRoute (method path : String) : Option ReadCall :=
  match path.toList with
  | '/' :: rest =>
    match (rest.splitOn '/').map String.ofList with
    | [] => none
    | raw :: after =>
      if after = [] ∧ raw ∈ ownRoutes then none
      else do
        let index ← pathParam raw
        let handler ← readHandler method after
        return ⟨handler, raw, index⟩
  | _ => none

/-- A read that the middleware leaves to administrators: `HEAD` where it knows only `GET`, and a bare
name with an underscore in front. -/
def ReadCall.AdminOnly (method : String) (call : ReadCall) : Prop :=
  match call.handler with
  | .getSource _ | .getMapping | .getSettings => method = "HEAD"
  | .getIndex | .headIndex => call.raw.toList.head? = some '_'
  | .search | .count | .getDoc _ | .headDoc _ => False

/-! ### What the middleware asks for -/

theorem segments_of_path (h : path.toList = '/' :: rest) (hfirst : rest.head? ≠ some '/')
    (hlast : rest.getLast? ≠ some '/') : segments path = (rest.splitOn '/').map ofList := by
  have hdrop : ('/' :: rest).dropWhile (· = '/') = rest := by
    cases rest with
    | nil => rfl
    | cons c rest =>
      simpa using hfirst
  have hrdrop : rest.rdropWhile (· = '/') = rest := by
    rw [rdropWhile_eq_self_iff]
    grind
  simp only [segments, h, hdrop, hrdrop]

theorem segments_of_parts (h : path.toList = '/' :: rest)
    (hfirst : ((rest.splitOn '/').map ofList).head? ≠ some "")
    (hlast : ((rest.splitOn '/').map ofList).getLast? ≠ some "") :
    segments path = (rest.splitOn '/').map ofList := by
  refine segments_of_path h (fun hhead => hfirst ?_) (fun hend => hlast ?_)
  · cases rest with
    | nil => cases hhead
    | cons c rest =>
      cases hhead
      have : ('/' :: rest).splitOn '/' = [] :: rest.splitOn '/' :=
        splitOnP_append_cons [] rest (by decide)
      rfl
  · obtain ⟨front, rfl⟩ := getLast?_eq_some_iff.mp hend
    have : (front ++ ['/']).splitOn '/' = front.splitOn '/' ++ [[]] :=
      splitOnP_append_cons front [] (by decide)
    grind

theorem ne_empty_of_pathParam {segment : String} (h : pathParam segment = some name) :
    segment ≠ "" := by
  rintro rfl
  cases h

theorem getLast?_of_readHandler (h : readHandler method after = some handler) (hraw : raw ≠ "") :
    (raw :: after).getLast? ≠ some "" := by
  unfold readHandler at h
  split at h
  · simpa using hraw
  · grind
  · next a d =>
      obtain ⟨id, hid, -⟩ := bind_eq_some_iff.mp h
      simpa using ne_empty_of_pathParam hid
  · cases h

theorem of_readRoute (h : readRoute method path = some call) :
    ∃ after, segments path = call.raw :: after ∧ ¬(after = [] ∧ call.raw ∈ ownRoutes) ∧
      pathParam call.raw = some call.index ∧ readHandler method after = some call.handler := by
  unfold readRoute at h
  split at h
  · next rest hpath =>
      split at h
      · cases h
      · next raw after hparts =>
          split_ifs at h with hown
          obtain ⟨index, hindex, h⟩ := bind_eq_some_iff.mp h
          obtain ⟨handler, hhandler, h⟩ := bind_eq_some_iff.mp h
          have hraw := ne_empty_of_pathParam hindex
          grind [segments_of_parts, getLast?_of_readHandler]
  · cases h

theorem classify_eq_classifyIndex (hsegs : segments path = raw :: after) (hraw : raw ≠ "")
    (hown : ¬(after = [] ∧ raw ∈ ownRoutes)) (h : readHandler method after = some handler) :
    classify method path = classifyIndex method raw after := by
  unfold classify
  unfold readHandler at h
  split at h
  · grind [ownRoutes]
  · grind
  · obtain ⟨id, -, h⟩ := bind_eq_some_iff.mp h
    grind
  · cases h

theorem classify_of_readRoute (h : readRoute method path = some call) :
    (¬call.AdminOnly method → classify method path = .search (some call.raw)) ∧
      (call.AdminOnly method → classify method path = .admin ∨
        call.raw = "_cat" ∧ classify method path = .search none) := by
  obtain ⟨handler, raw, index⟩ := call
  obtain ⟨after, hsegs, hown, hindex, hhandler⟩ := of_readRoute h
  rw [classify_eq_classifyIndex hsegs (ne_empty_of_pathParam hindex) hown hhandler]
  unfold readHandler at hhandler
  split at hhandler
  · simp only [ownRoutes, true_and, mem_cons, not_mem_nil, or_false, not_or] at hown
    split_ifs at hhandler with hget hhead
    · cases hhandler
      by_cases hcat : raw = "_cat"
      · subst hcat
        simp [classifyIndex, AdminOnly, hget]
      · grind [AdminOnly, classifyIndex]
    · grind [AdminOnly, classifyIndex]
  · split_ifs at hhandler with h₁ h₂ h₃ h₄
    · grind [AdminOnly, classifyIndex]
    · grind [AdminOnly, classifyIndex]
    · cases hhandler
      obtain ⟨rfl, hmethod⟩ := h₃
      rcases mem_pair.mp hmethod with rfl | rfl <;> simp [classifyIndex, AdminOnly]
    · cases hhandler
      obtain ⟨rfl, hmethod⟩ := h₄
      rcases mem_pair.mp hmethod with rfl | rfl <;> simp [classifyIndex, AdminOnly]
  · obtain ⟨id, -, hhandler⟩ := bind_eq_some_iff.mp hhandler
    split_ifs at hhandler with h₁ h₂ h₃
    · grind [AdminOnly, classifyIndex]
    · grind [AdminOnly, classifyIndex]
    · cases hhandler
      obtain ⟨rfl, hmethod⟩ := h₃
      rcases mem_pair.mp hmethod with rfl | rfl <;> simp [classifyIndex, AdminOnly]
  · cases hhandler

/-! ### An escape makes a name lighter -/

def notStar (b : UInt8) : Bool := b ≠ 0x2A

def charWeight (c : Char) : ℕ := (String.utf8EncodeChar c).countP notStar

theorem countP_utf8 (s : String) : (utf8 s).countP notStar = (s.toList.map charWeight).sum := by
  rw [utf8, countP_flatMap]
  rfl

theorem not_covers_of_hasEscape (hname : pathParam raw = some name) (hescape : HasEscape (utf8 raw)) :
    ¬Covers '*' raw.toList name.toList := by
  intro hcovers
  have hle := hcovers.sum_le (show charWeight '*' = 0 by decide)
  have hbytes : utf8 name = percentDecode (utf8 raw) := by
    unfold pathParam at hname
    rw [if_neg (ne_empty_of_pathParam hname)] at hname
    exact fromUtf8_eq_some_iff.mp hname
  have hdigit : ∀ b, (hexDigit b).isSome = true → notStar b = true := by
    intro b hb
    by_contra hstar
    rw [show b = 0x2A by simpa [notStar] using hstar] at hb
    cases hb
  have hlt := countP_percentDecode_lt (by decide) hdigit hescape
  grind [countP_utf8]

theorem eq_of_pathParam (h : pathParam raw = some name) (hescape : ¬HasEscape (utf8 raw)) :
    name = raw := by
  unfold pathParam at h
  rw [if_neg (ne_empty_of_pathParam h), percentDecode_eq_self hescape] at h
  have hback := fromUtf8_eq_some_iff.mp h
  rw [← fromUtf8Lossy_utf8 name, hback, fromUtf8Lossy_utf8]

/-! ### Reads and scopes -/

theorem allowsStream_of_star {id : Identity} (h : "*" ∈ id.streams) (stream : String) :
    id.allowsStream stream = true := by
  refine List.any_eq_true.mpr ⟨"*", h, streamGlobMatches_iff.mpr ?_⟩
  exact (covers_star_literal_iff not_mem_nil).mpr nil_suffix

def searcherOf (pattern : String) : Identity := ⟨"reader", false, ["search"], [pattern]⟩

theorem allowsStream_searcherOf :
    (searcherOf pattern).allowsStream stream = true ↔
      Covers '*' pattern.toList stream.toList := by
  rw [← streamGlobMatches_iff]
  simp [Identity.allowsStream, searcherOf]

/-- **A read route stays in scope**: an identity that is no administrator and is let through has the
handler's stream in its scope. -/
def ReadInScope (method path index : String) : Prop :=
  ∀ id : Identity, id.isAdmin = false → require true (.as id) method path = .pass →
    id.allowsStream index = true

/-- **When a read route stays in scope**: exactly when an index with an escape is left to
administrators. -/
theorem read_in_scope_iff {method path : String} {call : ReadCall}
    (h : readRoute method path = some call) :
    ReadInScope method path call.index ↔ (HasEscape (utf8 call.raw) → call.AdminOnly method) := by
  obtain ⟨hscoped, hadmin⟩ := classify_of_readRoute h
  obtain ⟨after, -, -, hindex, -⟩ := of_readRoute h
  constructor
  · intro hsafe hescape
    by_contra hopen
    -- the identity whose only pattern is the segment itself
    have hpass : require true (.as (searcherOf call.raw)) method path = .pass := by
      have hraw := allowsStream_searcherOf.mpr (Glob.covers_self call.raw.toList)
      grind [require, Identity.permits, searcherOf]
    have hallows := hsafe (searcherOf call.raw) rfl hpass
    grind [allowsStream_searcherOf, not_covers_of_hasEscape]
  · intro hescape id hid hpass
    by_cases hopen : call.AdminOnly method
    · grind [allowsStream_of_star, require, Identity.permits]
    · grind [eq_of_pathParam, require, Identity.permits]

/-- A search of `logs` stays in scope. -/
theorem read_in_scope_logs :
    readRoute "GET" "/logs/_search" = some ⟨.search, "logs", "logs"⟩ ∧
      ReadInScope "GET" "/logs/_search" "logs" := by
  have hroute : readRoute "GET" "/logs/_search" = some ⟨.search, "logs", "logs"⟩ := by
    decide +kernel
  refine ⟨hroute, (read_in_scope_iff hroute).mpr fun hescape => ?_⟩
  simp [utf8, HasEscape, String.utf8EncodeChar, Bytes.escape] at hescape

/-- **A read outside the scope.**  The identity may search the streams whose names end in `41`; it is
let through for `x%41`, and the handler searches `xA`. -/
theorem read_escapes_scope :
    require true (.as (searcherOf "*41")) "GET" "/x%41/_search" = .pass ∧
      readRoute "GET" "/x%41/_search" = some ⟨.search, "x%41", "xA"⟩ ∧
      (searcherOf "*41").isAdmin = false ∧ (searcherOf "*41").allowsStream "xA" = false := by
  decide +kernel

end RSearch.Auth
