import Mathlib

/-!
# Wildcard patterns as regular expressions

A wildcard query hands the index a text, which a regular-expression engine reads: a star becomes
`.*`, a question mark `.`, and what else has a meaning is escaped.  The reader below knows atoms,
escapes and repetitions only.
-/

namespace RSearch.Wildcard

open List

/-! ### Reading an expression -/

inductive Atom where
  | any
  | letter (c : Char)

inductive Repeat where
  | once
  | star
  | plus
  | optional

inductive Token where
  | atom (a : Atom)
  | repeated (r : Repeat)
  | other

def metaChars : List Char :=
  ['.', '^', '$', '*', '+', '?', '(', ')', '[', ']', '\x7b', '\x7d', '|', '\\']

def tokenOf (c : Char) : Token :=
  if c = '.' then .atom .any
  else if c = '*' then .repeated .star
  else if c = '+' then .repeated .plus
  else if c = '?' then .repeated .optional
  else if c ∈ metaChars then .other
  else .atom (.letter c)

/-- An escaped letter stands for itself if it has a meaning otherwise; some of the others are classes. -/
def tokens : List Char → List Token
  | [] => []
  | [c] => [tokenOf c]
  | c :: d :: text =>
    if c = '\\' then (if d ∈ metaChars then .atom (.letter d) else .other) :: tokens text
    else tokenOf c :: tokens (d :: text)

def pieces : List Token → Option (List (Atom × Repeat))
  | [] => some []
  | .atom a :: .repeated r :: rest => (pieces rest).map ((a, r) :: ·)
  | .atom a :: rest => (pieces rest).map ((a, .once) :: ·)
  | _ => none

/-- An expression with its flags: behind `(?s)` a dot also stands for the end of a line. -/
def readPattern (text : List Char) : Bool × Option (List (Atom × Repeat)) :=
  if "(?s)".toList <+: text then (true, pieces (tokens (text.drop 4))) else (false, pieces (tokens text))

def Atom.Holds (dotAll : Bool) : Atom → Char → Prop
  | .any, c => dotAll = true ∨ c ≠ '\n'
  | .letter d, c => c = d

def Repeat.Allows : Repeat → ℕ → Prop
  | .once, n => n = 1
  | .star, _ => True
  | .plus, n => 1 ≤ n
  | .optional, n => n ≤ 1

/-- **The words of an expression**, from end to end. -/
def Matches (dotAll : Bool) : List (Atom × Repeat) → List Char → Prop
  | [], word => word = []
  | (a, r) :: rest, word => ∃ run left, word = run ++ left ∧ r.Allows run.length ∧
      (∀ c ∈ run, a.Holds dotAll c) ∧ Matches dotAll rest left

/-! ### The expression of a pattern -/

def pushRegexLiteral (c : Char) : List Char :=
  if c ∈ ['.', '^', '$', '*', '+', '?', '(', ')', '[', ']', '\x7b', '\x7d', '|', '\\'] then ['\\', c]
  else [c]

def wildcardRegexBody (value : List Char) : List Char :=
  value.flatMap fun c =>
    if c = '*' then ['.', '*'] else if c = '?' then ['.'] else pushRegexLiteral c

/-- The pattern that `translate_wildcard` builds for a mapped field. -/
def wildcardPattern (value : List Char) : List Char := "(?s)".toList ++ wildcardRegexBody value

/-- **The words of a wildcard pattern**: any run at a star, one letter at a question mark, and every other
letter only itself. -/
def Covers : List Char → List Char → Prop
  | [], word => word = []
  | c :: pattern, word =>
    if c = '*' then ∃ run rest, word = run ++ rest ∧ Covers pattern rest
    else if c = '?' then ∃ d rest, word = d :: rest ∧ Covers pattern rest
    else ∃ rest, word = c :: rest ∧ Covers pattern rest

def pieceOf (c : Char) : Atom × Repeat :=
  if c = '*' then (.any, .star) else if c = '?' then (.any, .once) else (.letter c, .once)

variable {c : Char} {text value : List Char}

theorem tokens_cons (h : c ≠ '\\') : tokens (c :: text) = tokenOf c :: tokens text := by
  cases text with
  | nil => rfl
  | cons d text => rw [tokens, if_neg h]

theorem tokens_escaped (h : c ∈ metaChars) : tokens ('\\' :: c :: text) = .atom (.letter c) :: tokens text := by
  rw [tokens, if_pos rfl, if_pos h]

theorem tokens_literal (c : Char) (text : List Char) :
    tokens (pushRegexLiteral c ++ text) = .atom (.letter c) :: tokens text := by
  have heq : pushRegexLiteral c = if c ∈ metaChars then ['\\', c] else [c] := rfl
  by_cases h : c ∈ metaChars
  · rw [heq, if_pos h]
    exact tokens_escaped h
  · have htoken : tokenOf c = .atom (.letter c) := by
      simp only [metaChars, mem_cons, not_or] at h
      simp [tokenOf, metaChars, h]
    rw [heq, if_neg h, singleton_append, tokens_cons (fun hc => h (by simp [hc, metaChars])), htoken]

theorem pieces_atom {a : Atom} {ts : List Token} (h : ∀ r rest, ts ≠ .repeated r :: rest) :
    pieces (.atom a :: ts) = (pieces ts).map ((a, .once) :: ·) := by
  rcases ts with _ | ⟨_ | r | _, rest⟩
  · rfl
  · rfl
  · exact absurd rfl (h r rest)
  · rfl

/-- No piece of a pattern starts with a repetition, so none changes the one before it. -/
theorem pieces_body (value : List Char) :
    pieces (tokens (wildcardRegexBody value)) = some (value.map pieceOf) ∧
      ∀ r rest, tokens (wildcardRegexBody value) ≠ .repeated r :: rest := by
  induction value with
  | nil => exact ⟨rfl, by simp [wildcardRegexBody, tokens]⟩
  | cons c value ih =>
    obtain ⟨hpieces, hstart⟩ := ih
    rw [map_cons, pieceOf]
    simp only [wildcardRegexBody, flatMap_cons] at hpieces hstart ⊢
    split_ifs with hstar hmark
    · rw [cons_append, singleton_append, tokens_cons (by decide), tokens_cons (by decide)]
      exact ⟨by simp [tokenOf, pieces, hpieces], by simp [tokenOf]⟩
    · rw [singleton_append, tokens_cons (by decide)]
      exact ⟨by simp [tokenOf, pieces_atom hstart, hpieces], by simp [tokenOf]⟩
    · rw [tokens_literal]
      exact ⟨by simp [pieces_atom hstart, hpieces], by simp⟩

theorem matches_once {dotAll : Bool} {a : Atom} {rest : List (Atom × Repeat)} {word : List Char} :
    Matches dotAll ((a, .once) :: rest) word ↔
      ∃ c left, word = c :: left ∧ a.Holds dotAll c ∧ Matches dotAll rest left := by
  constructor
  · rintro ⟨run, left, rfl, hlen, hholds, hrest⟩
    obtain ⟨c, rfl⟩ := length_eq_one_iff.mp hlen
    exact ⟨c, left, rfl, hholds c (mem_singleton_self c), hrest⟩
  · rintro ⟨c, left, rfl, hc, hrest⟩
    exact ⟨[c], left, rfl, rfl, by simpa using hc, hrest⟩

theorem matches_iff_covers (value word : List Char) :
    Matches true (value.map pieceOf) word ↔ Covers value word := by
  induction value generalizing word with
  | nil => rfl
  | cons c value ih =>
    rw [map_cons, pieceOf, Covers]
    split_ifs with hstar hmark
    · simp [Matches, Repeat.Allows, Atom.Holds, ih]
    · simp [matches_once, Atom.Holds, ih]
    · simp [matches_once, Atom.Holds, ih]

/-- **A wildcard query asks for what its pattern covers**, whatever the letters of the pattern. -/
theorem wildcard_matches_iff (value : List Char) :
    ∃ ps, readPattern (wildcardPattern value) = (true, some ps) ∧
      ∀ word, Matches true ps word ↔ Covers value word := by
  refine ⟨value.map pieceOf, ?_, matches_iff_covers value⟩
  exact congrArg _ (pieces_body value).1

end RSearch.Wildcard
