import RSearch.Index.Date

/-!
# The standard tokenizer

The stream hands out one span a call: the next word with a letter or a digit, cut at 255 characters, with
what is left of a longer word kept for the next call as a pair of byte offsets (`emits_word`).
-/

namespace RSearch.Index.Tokenizer

open List

def maxTokenLength : ℕ := 255

structure Token where
  position : ℕ
  offsetFrom : ℕ
  offsetTo : ℕ
  text : List Char

structure Stream where
  text : List Char
  words : List (ℕ × List Char)
  longWord : Option (ℕ × ℕ)
  token : Token

/-- The words of a text with the offsets they begin at. -/
def wordIndices : ℕ → List (List Char) → List (ℕ × List Char)
  | _, [] => []
  | start, word :: words => (start, word) :: wordIndices (start + byteLen word) words

/-- A stream over the text that a segmentation cuts into words. -/
def tokenStream (words : List (List Char)) : Stream :=
  ⟨words.flatten, wordIndices 0 words, none, ⟨2 ^ 64 - 1, 0, 0, []⟩⟩

def slice (text : List Char) (start stop : ℕ) : Unwind (List Char) := do
  let (_, rest) ← splitAt start text
  let (word, _) ← splitAt (stop - start) rest
  return word

/-- A span cut at the length of a token, and the rest to queue. -/
def chunk (text : List Char) (start stop : ℕ) : Unwind ((ℕ × ℕ) × Option (ℕ × ℕ)) := do
  let word ← slice text start stop
  if maxTokenLength < word.length then
    let cut := start + byteLen (word.take maxTokenLength)
    return ((start, cut), some (cut, stop))
  else return ((start, stop), none)

section

variable (alnum : Char → Bool)

def Stream.nextSpan (s : Stream) : Unwind (Option (ℕ × ℕ) × Stream) :=
  match s.longWord with
  | some (start, stop) => do
    let (span, longWord) ← chunk s.text start stop
    return (some span, { s with longWord })
  | none =>
    match s.words.dropWhile fun word => !word.2.any alnum with
    | [] => .ok (none, { s with words := [] })
    | (start, word) :: words => do
      let (span, longWord) ← chunk s.text start (start + byteLen word)
      return (some span, { s with words, longWord })

def Stream.advance (s : Stream) : Unwind (Bool × Stream) := do
  let position := (s.token.position + 1) % 2 ^ 64
  match ← s.nextSpan alnum with
  | (none, s) => return (false, { s with token := { s.token with position, text := [] } })
  | (some (start, stop), s) =>
    return (true, { s with token := ⟨position, start, stop, ← slice s.text start stop⟩ })

/-- The tokens a stream emits until it says that there are no more. -/
inductive Emits : Stream → List Token → Prop
  | done {s s' : Stream} : s.advance alnum = .ok (false, s') → Emits s []
  | next {s s' : Stream} {tokens : List Token} : s.advance alnum = .ok (true, s') →
      Emits s' tokens → Emits s (s'.token :: tokens)

/-! ### What the tokens must be -/

/-- Pieces one behind the other from an offset on, numbered from a position on. -/
def tiles : ℕ → ℕ → List (List Char) → List Token
  | _, _, [] => []
  | position, start, piece :: pieces =>
    ⟨position % 2 ^ 64, start, start + byteLen piece, piece⟩ ::
      tiles (position + 1) (start + byteLen piece) pieces

/-- The tiles of each word with a letter or a digit, for a way to cut a word into pieces. -/
def tilesOfWords (pieces : List Char → List (List Char)) : ℕ → ℕ → List (List Char) → List Token
  | _, _, [] => []
  | position, start, word :: words =>
    if word.any alnum then
      tiles position start (pieces word) ++
        tilesOfWords pieces (position + (pieces word).length) (start + byteLen word) words
    else tilesOfWords pieces position (start + byteLen word) words

end

/-- The pieces of a word, each but the last of the length a token has at most. -/
def pieces (word : List Char) : List (List Char) :=
  if maxTokenLength < word.length then
    word.take maxTokenLength :: pieces (word.drop maxTokenLength)
  else [word]
termination_by word.length
decreasing_by simp only [length_drop, maxTokenLength] at *; omega

theorem pieces_tile (word : List Char) : (pieces word).flatten = word ∧
    (0 < word.length → ∀ piece ∈ pieces word, 1 ≤ piece.length ∧ piece.length ≤ 255) := by
  fun_induction pieces word <;> grind [maxTokenLength, take_append_drop]

theorem byteLen_append (a b : List Char) : byteLen (a ++ b) = byteLen a + byteLen b := by
  simp [byteLen]

theorem slice_append (a b c : List Char) :
    slice (a ++ (b ++ c)) (byteLen a) (byteLen a + byteLen b) = .ok b := by
  simp [slice, splitAt, splitAtByte_append, bind, Except.bind, pure, Except.pure]

theorem chunk_append (a word b : List Char) :
    chunk (a ++ (word ++ b)) (byteLen a) (byteLen a + byteLen word) = .ok
      (if maxTokenLength < word.length then
        ((byteLen a, byteLen a + byteLen (word.take maxTokenLength)),
          some (byteLen a + byteLen (word.take maxTokenLength), byteLen a + byteLen word))
      else ((byteLen a, byteLen a + byteLen word), none)) := by
  rw [chunk, slice_append]
  change (if _ then _ else _) = _
  split_ifs <;> rfl

variable {alnum : Char → Bool} {s : Stream} {a word piece b : List Char} {position : ℕ}
  {words : List (ℕ × List Char)}

theorem Emits.of_advance {r : Stream} {tokens : List Token}
    (heq : s.advance alnum = r.advance alnum) (h : Emits alnum r tokens) :
    Emits alnum s tokens := by
  cases h with
  | done h => exact .done (heq.trans h)
  | next h hrest => exact .next (heq.trans h) hrest

theorem advance_eq {stop : ℕ} {longWord : Option (ℕ × ℕ)} (hspan : s.nextSpan alnum = do
      let (span, longWord) ← chunk s.text (byteLen a) stop
      return (some span, { s with words, longWord }))
    (hchunk : chunk s.text (byteLen a) stop = .ok ((byteLen a, byteLen a + byteLen piece), longWord))
    (htext : s.text = a ++ (piece ++ b)) (hpos : (s.token.position + 1) % 2 ^ 64 = position % 2 ^ 64) :
    s.advance alnum = .ok (true, { s with
      words, longWord, token := ⟨position % 2 ^ 64, byteLen a, byteLen a + byteLen piece, piece⟩ }) := by
  have hslice := slice_append a piece b
  rw [← htext] at hslice
  simp only [Stream.advance, hspan, hchunk, hpos, bind, Except.bind, hslice, pure, Except.pure]

theorem emits_word {tokens : List Token} (hspan : s.nextSpan alnum = do
      let (span, longWord) ← chunk s.text (byteLen a) (byteLen a + byteLen word)
      return (some span, { s with words, longWord }))
    (htext : s.text = a ++ (word ++ b)) (hpos : (s.token.position + 1) % 2 ^ 64 = position % 2 ^ 64)
    (hrest : ∀ token, (token.position + 1) % 2 ^ 64 = (position + (pieces word).length) % 2 ^ 64 →
      Emits alnum { s with words, longWord := none, token } tokens) :
    Emits alnum s (tiles position (byteLen a) (pieces word) ++ tokens) := by
  have hchunk := chunk_append a word b
  rw [← htext] at hchunk
  fun_induction pieces word generalizing s a position with
  | case1 word hlt ih =>
    have hword : word.take maxTokenLength ++ word.drop maxTokenLength = word := take_append_drop ..
    have hnext : s.text = a ++ word.take maxTokenLength ++ (word.drop maxTokenLength ++ b) := by
      conv_lhs => rw [htext, ← hword]
      simp only [append_assoc]
    have hstop := byteLen_append (word.take maxTokenLength) (word.drop maxTokenLength)
    rw [if_pos hlt] at hchunk
    rw [hword] at hstop
    refine .next (advance_eq hspan hchunk (hnext.trans (append_assoc ..)) hpos) ?_
    rw [hstop, ← add_assoc, ← byteLen_append]
    refine ih rfl hnext (by simp) ?_ ?_
    · intro token h
      exact hrest token (by rw [h, length_cons, add_right_comm, add_assoc])
    · rw [hnext]
      exact chunk_append ..
  | case2 word hle =>
    rw [if_neg hle] at hchunk
    exact .next (advance_eq hspan hchunk htext hpos) (hrest _ (by simp))

theorem emits_words (words : List (List Char)) (htext : s.text = a ++ words.flatten)
    (hwords : s.words = wordIndices (byteLen a) words) (hlong : s.longWord = none)
    (hpos : (s.token.position + 1) % 2 ^ 64 = position % 2 ^ 64) :
    Emits alnum s (tilesOfWords alnum pieces position (byteLen a) words) := by
  induction words generalizing s a position with
  | nil => exact .done (by rw [Stream.advance, Stream.nextSpan, hlong, hwords]; rfl)
  | cons word words ih =>
    rw [tilesOfWords, ← byteLen_append]
    rw [wordIndices, ← byteLen_append] at hwords
    split_ifs with hany
    · refine emits_word ?_ htext hpos fun token h => ih (htext.trans (append_assoc ..).symm) rfl rfl h
      simp [Stream.nextSpan, hlong, hwords, hany]
    · refine .of_advance (r := { s with words := wordIndices (byteLen (a ++ word)) words }) ?_
        (ih (htext.trans (append_assoc ..).symm) rfl hlong hpos)
      simp [Stream.advance, Stream.nextSpan, hlong, hwords, hany]

/-- **Every text is cut into its words' tokens**: for each word with a letter or a digit there are pieces
of 1 to 255 characters that make it up, and the stream emits these, with their offsets and one position
behind the other, and nothing else. -/
theorem tokenStream_emits (alnum : Char → Bool) (words : List (List Char)) :
    Emits alnum (tokenStream words) (tilesOfWords alnum pieces 0 0 words) ∧
      ∀ word ∈ words, word.any alnum → (pieces word).flatten = word ∧
        ∀ piece ∈ pieces word, 1 ≤ piece.length ∧ piece.length ≤ 255 :=
  ⟨emits_words (a := []) words rfl rfl rfl (by simp [tokenStream]), fun word _ hany =>
    ⟨(pieces_tile word).1, (pieces_tile word).2 (by cases word <;> simp at hany ⊢)⟩⟩

end RSearch.Index.Tokenizer
