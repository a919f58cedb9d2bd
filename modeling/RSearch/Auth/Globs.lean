import RSearch.Auth.Reads
import RSearch.Index.Date

/-!
# Two matchers of one pattern language

Stream scopes and the patterns of `auto_create_index` are matched by two functions that search a name
for the pieces of a pattern and slice it behind what they find.  The slices are of bytes: one inside
a character unwinds.
-/

namespace RSearch.Auth

open Index (byteLen splitAt Unwind)

def find (piece : List Char) : List Char → Option ℕ
  | [] => if piece = [] then some 0 else none
  | c :: cs => if piece <+: c :: cs then some 0 else (find piece cs).map (c.utf8Size + ·)

def cutAfter (piece rest : List Char) : Unwind (Option (List Char)) :=
  match find piece rest with
  | some at_ => (splitAt (at_ + byteLen piece) rest).map fun p => some p.2
  | none => .ok none

def cutPieces : List (List Char) → List Char → Unwind (Option (List Char))
  | [], rest => .ok (some rest)
  | piece :: pieces, rest => do
    match ← cutAfter piece rest with
    | some rest => cutPieces pieces rest
    | none => return none

/-- `stream_glob_matches` of the auth module. -/
def streamGlobSliced (pattern stream : List Char) : Unwind Bool :=
  if '*' ∉ pattern then .ok (pattern == stream)
  else
    let parts := pattern.splitOn '*'
    if ¬ parts.headD [] <+: stream then .ok false
    else do
      let rest ← splitAt (byteLen (parts.headD [])) stream
      match ← cutPieces parts.tail.dropLast rest.2 with
      | some rest => return decide (parts.getLastD [] <:+ rest)
      | none => return false

/-- `glob_matches` of the configuration: empty pieces are passed over, the last piece is searched for like
the others, and then has to end the name or what is left of it has to be empty. -/
def globMatches (pattern name : List Char) : Unwind Bool :=
  let parts := pattern.splitOn '*'
  if ¬ parts.headD [] <+: name then .ok false
  else do
    let rest ← splitAt (byteLen (parts.headD [])) name
    match ← cutPieces (parts.tail.filter (· ≠ [])) rest.2 with
    | none => return false
    | some rest =>
      match parts.tail.getLast? with
      | some [] => return true
      | some part => return decide (rest = [] ∨ part <:+ name)
      | none => return decide (rest = [])

/-- **The name can be cut at the pieces**: it starts with the first, any text stands at each star, and it
ends with the last. -/
def Cut : List (List Char) → List Char → Prop
  | [], name => name = []
  | [last], name => name = last
  | piece :: next :: pieces, name =>
    ∃ text rest, name = piece ++ (text ++ rest) ∧ Cut (next :: pieces) rest

variable {piece cs : List Char} {pieces : List (List Char)}

theorem cutAfter_eq (piece cs : List Char) : cutAfter piece cs = .ok (afterFirst piece cs) := by
  have hfind : ∀ cs, (find piece cs = none ∧ afterFirst piece cs = none) ∨ ∃ skipped rest,
      cs = skipped ++ piece ++ rest ∧ find piece cs = some (byteLen skipped) ∧
        afterFirst piece cs = some rest := by
    intro cs
    induction cs with
    | nil =>
      by_cases h : piece = []
      · exact .inr ⟨[], [], by simp [h], by simp [find, h, byteLen], by simp [afterFirst, h]⟩
      · exact .inl (by simp [find, afterFirst, h])
    | cons c cs ih =>
      rw [find, afterFirst]
      split_ifs with h
      · obtain ⟨rest, hrest⟩ := h
        exact .inr ⟨[], rest, by simp [hrest], rfl, by simp [← hrest]⟩
      · rcases ih with ⟨hnone, hafter⟩ | ⟨skipped, rest, rfl, hsome, hafter⟩
        · exact .inl ⟨by rw [hnone]; rfl, hafter⟩
        · exact .inr ⟨c :: skipped, rest, rfl, by rw [hsome]; rfl, hafter⟩
  unfold cutAfter
  rcases hfind cs with ⟨hnone, hafter⟩ | ⟨skipped, rest, rfl, hsome, hafter⟩
  · rw [hnone, hafter]
  · have hlen : byteLen skipped + byteLen piece = byteLen (skipped ++ piece) := by simp [byteLen]
    simp only [hsome, hafter, hlen, splitAt, Index.splitAtByte_append]
    rfl

theorem cutPieces_eq (pieces : List (List Char)) (cs : List Char) :
    cutPieces pieces cs = .ok (afterPieces pieces cs) := by
  induction pieces generalizing cs with
  | nil => rfl
  | cons piece pieces ih =>
    rw [cutPieces, cutAfter_eq, afterPieces]
    cases h : afterFirst piece cs with
    | none => rfl
    | some rest => exact ih rest

theorem afterPieces_filter (pieces : List (List Char)) (cs : List Char) :
    afterPieces (pieces.filter (· ≠ [])) cs = afterPieces pieces cs := by
  induction pieces generalizing cs with
  | nil => rfl
  | cons piece pieces ih =>
    by_cases h : piece = []
    · have hnil : afterFirst [] cs = some cs := by cases cs <;> simp [afterFirst]
      rw [List.filter_cons_of_neg (by simpa using h), ih, afterPieces, h, hnil]
      rfl
    · rw [List.filter_cons_of_pos (by simpa using h), afterPieces, afterPieces]
      exact congrArg _ (funext ih)

theorem covers_iff_cut (hpieces : ∀ piece ∈ pieces, '*' ∉ piece) :
    Glob.Covers '*' (['*'].intercalate pieces) cs ↔ Cut pieces cs := by
  induction pieces generalizing cs with
  | nil => exact Glob.covers_nil_iff
  | cons piece pieces ih =>
    obtain ⟨hpiece, hrest⟩ := List.forall_mem_cons.mp hpieces
    cases pieces with
    | nil => simpa [List.intercalate, Cut] using Glob.covers_literal_iff hpiece
    | cons next pieces =>
      have hjoin : ['*'].intercalate (piece :: next :: pieces) =
          piece ++ '*' :: ['*'].intercalate (next :: pieces) := by simp
      rw [hjoin, Glob.covers_append_iff hpiece, Cut]
      simp only [Glob.covers_star_iff, ih hrest]
      constructor
      · rintro ⟨-, rfl, rest, ⟨text, rfl⟩, hcut⟩
        exact ⟨text, rest, rfl, hcut⟩
      · rintro ⟨text, rest, rfl, hcut⟩
        exact ⟨_, rfl, rest, List.suffix_append _ _, hcut⟩

/-- Searching for the last piece, too, and comparing it with the end of the name is the same as looking
at the end of what the others leave. -/
theorem afterFirst_last {name rest last : List Char} (hsuffix : rest <:+ name) :
    (∃ left, afterFirst last rest = some left ∧ (left = [] ∨ last <:+ name)) ↔ last <:+ rest := by
  constructor
  · rintro ⟨left, h, hend⟩
    obtain ⟨skipped, rfl⟩ := eq_of_afterFirst h
    rcases hend with rfl | hend
    · exact ⟨skipped, by simp⟩
    · exact List.suffix_of_suffix_length_le hend hsuffix (by simp; omega)
  · rintro ⟨skipped, rfl⟩
    obtain ⟨left, h, -⟩ := afterFirst_append skipped last []
    rw [List.append_nil] at h
    exact ⟨left, h, .inr ((List.suffix_append _ _).trans hsuffix)⟩

theorem afterPieces_append (pieces pieces' : List (List Char)) (cs : List Char) :
    afterPieces (pieces ++ pieces') cs = (afterPieces pieces cs).bind (afterPieces pieces') := by
  induction pieces generalizing cs with
  | nil => rfl
  | cons piece pieces ih =>
    rw [List.cons_append, afterPieces, afterPieces, Option.bind_assoc]
    exact congrArg _ (funext ih)

theorem suffix_of_afterPieces {rest : List Char} (h : afterPieces pieces cs = some rest) : rest <:+ cs := by
  induction pieces generalizing cs with
  | nil =>
    cases h
    exact List.suffix_rfl
  | cons piece pieces ih =>
    obtain ⟨left, hleft, hrest⟩ := Option.bind_eq_some_iff.mp h
    obtain ⟨skipped, rfl⟩ := eq_of_afterFirst hleft
    exact (ih hrest).trans ⟨skipped ++ piece, by simp⟩

theorem splitAt_first (first rest : List Char) :
    splitAt (byteLen first) (first ++ rest) = .ok (first, rest) := by
  rw [splitAt, Index.splitAtByte_append]

theorem streamGlobSliced_eq (pattern stream : List Char) : streamGlobSliced pattern stream =
    .ok (streamGlobMatches (String.ofList pattern) (String.ofList stream)) := by
  unfold streamGlobSliced streamGlobMatches
  simp only [String.toList_ofList]
  split_ifs with hstar hfirst
  · obtain ⟨rest, hrest⟩ := hfirst
    rw [← hrest, splitAt_first]
    simp only [bind, Except.bind, cutPieces_eq, List.drop_left]
    cases afterPieces _ rest <;> rfl
  · rfl
  · simp [String.ofList_inj]

theorem globMatches_iff (pattern name : List Char) :
    ∃ b, globMatches pattern name = .ok b ∧ (b = true ↔ Glob.Covers '*' pattern name) := by
  unfold globMatches
  by_cases hstar : '*' ∈ pattern
  · obtain ⟨first, mids, last, hsplit, hpattern⟩ := exists_pieces hstar
    have hparts := @Glob.notMem_of_mem_splitOn _ _ '*' pattern
    rw [hsplit] at hparts
    rw [hsplit, hpattern, Glob.covers_append_iff (hparts first List.mem_cons_self)]
    simp only [List.headD_cons, List.tail_cons, List.getLast?_concat]
    split_ifs with hfirst
    swap
    · refine ⟨false, rfl, iff_of_false Bool.false_ne_true ?_⟩
      rintro ⟨rest, rfl, -⟩
      exact hfirst (List.prefix_append _ _)
    · obtain ⟨rest, rfl⟩ := hfirst
      simp only [splitAt_first, bind, Except.bind, cutPieces_eq, afterPieces_filter, afterPieces_append,
        List.append_cancel_left_eq, exists_eq_left']
      rw [← afterPieces_iff (fun piece hpiece => hparts piece (by simp [hpiece])) (hparts last (by simp))]
      cases hmids : afterPieces mids rest with
      | none => exact ⟨false, rfl, by simp⟩
      | some left =>
        have hend := @afterFirst_last _ _ last
          ((suffix_of_afterPieces hmids).trans (List.suffix_append first rest))
        cases last with
        | nil => exact ⟨true, by cases left <;> simp [afterPieces, afterFirst, pure, Except.pure], by simp⟩
        | cons c last =>
          simp only [Option.bind_some, afterPieces, Option.some.injEq, exists_eq_left', ← hend]
          cases hlast : afterFirst (c :: last) left with
          | none => exact ⟨false, rfl, by simp⟩
          | some tail => exact ⟨_, rfl, by simp⟩
  · have hsplit : pattern.splitOn '*' = [pattern] := List.splitOnP_eq_singleton (by
      intro c hc
      exact beq_eq_false_iff_ne.mpr fun heq => hstar (heq ▸ hc))
    rw [hsplit, Glob.covers_literal_iff hstar]
    by_cases hfirst : pattern <+: name
    · obtain ⟨rest, rfl⟩ := hfirst
      refine ⟨decide (rest = []), ?_, by simp⟩
      simp only [List.headD_cons, List.prefix_append, splitAt_first]
      rfl
    · refine ⟨false, if_pos hfirst, iff_of_false Bool.false_ne_true ?_⟩
      rintro rfl
      exact hfirst List.prefix_rfl

/-- **The two matchers agree, and find what the pattern covers**; neither slices a name inside a
character. -/
theorem glob_matchers_agree (pattern name : List Char) : ∃ b, streamGlobSliced pattern name = .ok b ∧
    globMatches pattern name = .ok b ∧ (b = true ↔ Cut (pattern.splitOn '*') name) := by
  have hcut : Glob.Covers '*' pattern name ↔ Cut (pattern.splitOn '*') name := by
    rw [← covers_iff_cut (Glob.notMem_of_mem_splitOn pattern), List.intercalate_splitOn]
  have hstream := @streamGlobMatches_iff (String.ofList pattern) (String.ofList name)
  simp only [String.toList_ofList] at hstream
  obtain ⟨b, hb, hiff⟩ := globMatches_iff pattern name
  refine ⟨b, ?_, hb, hiff.trans hcut⟩
  rw [streamGlobSliced_eq, Bool.eq_iff_iff.mpr (hstream.trans hiff.symm)]

end RSearch.Auth
