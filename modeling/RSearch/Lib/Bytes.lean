import Mathlib

/-!
# Byte strings: little-endian fields and UTF-8

Files, buffers and payloads are lists of bytes; a fixed-width integer field is written low byte first,
and text is its UTF-8 encoding.
-/

abbrev Bytes := List UInt8

namespace Bytes

open List

/-! ## Cutting at the seam -/

variable {as : Bytes}

theorem take_append_of_length (bs : Bytes) {n : ℕ} (h : as.length = n) : (as ++ bs).take n = as := by
  subst h
  simp

theorem drop_append_of_length (bs : Bytes) {n : ℕ} (h : as.length = n) : (as ++ bs).drop n = bs := by
  subst h
  simp

/-! ## Little-endian integers -/

def toLe : ℕ → ℕ → Bytes
  | 0, _ => []
  | w + 1, n => UInt8.ofNat n :: toLe w (n / 256)

def ofLe (bs : Bytes) : ℕ :=
  Nat.ofDigits 256 (bs.map UInt8.toNat)

@[simp] theorem length_toLe (w n : ℕ) : (toLe w n).length = w := by
  induction w generalizing n with
  | zero => rfl
  | succ w ih => simp [toLe, ih]

theorem ofLe_toLe (w n : ℕ) : ofLe (toLe w n) = n % 256 ^ w := by
  induction w generalizing n with
  | zero => simp [toLe, ofLe, Nat.mod_one]
  | succ w ih =>
    have hrest : Nat.ofDigits 256 ((toLe w (n / 256)).map UInt8.toNat) = n / 256 % 256 ^ w :=
      ih (n / 256)
    simp only [toLe, ofLe, map_cons, Nat.ofDigits_cons, hrest, UInt8.toNat_ofNat']
    rw [show 256 ^ (w + 1) = 256 * 256 ^ w from pow_succ' 256 w, Nat.mod_mul]

theorem ofLe_toLe_of_lt {w n : ℕ} (h : n < 256 ^ w) : ofLe (toLe w n) = n := by
  rw [ofLe_toLe, Nat.mod_eq_of_lt h]

/-! ## UTF-8 -/

def utf8 (s : String) : Bytes :=
  s.toList.flatMap String.utf8EncodeChar

def isContinuation (b : UInt8) : Bool :=
  0x80 ≤ b && b ≤ 0xBF

/-- May `b` follow the lead byte `lead` of a three- or four-byte sequence?  The first continuation
is narrower than the others where a wider one would be overlong, a surrogate, or too large. -/
def secondOk (lead b : UInt8) : Bool :=
  if lead = 0xE0 then 0xA0 ≤ b && b ≤ 0xBF
  else if lead = 0xED then 0x80 ≤ b && b ≤ 0x9F
  else if lead = 0xF0 then 0x90 ≤ b && b ≤ 0xBF
  else if lead = 0xF4 then 0x80 ≤ b && b ≤ 0x8F
  else 0xE1 ≤ lead && lead ≤ 0xF3 && isContinuation b

/-- How many bytes of a text that starts with an ill-formed sequence one U+FFFD stands for: the
longest start of a well-formed sequence, and at least one byte. -/
def maximalSubpart : Bytes → ℕ
  | lead :: b₁ :: rest =>
    if secondOk lead b₁ then
      match rest with
      | b₂ :: _ => if isContinuation b₂ && 0xF0 ≤ lead then 3 else 2
      | [] => 2
    else 1
  | _ => 1

def lossyChars : ℕ → Bytes → List Char
  | 0, _ => []
  | _ + 1, [] => []
  | fuel + 1, b :: bs =>
    match (b :: bs).toByteArray.utf8DecodeChar? 0 with
    | some c => c :: lossyChars fuel ((b :: bs).drop c.utf8Size)
    | none => Char.ofNat 0xFFFD :: lossyChars fuel ((b :: bs).drop (maximalSubpart (b :: bs)))

def fromUtf8Lossy (bs : Bytes) : String :=
  String.ofList (lossyChars bs.length bs)

theorem lossyChars_flatMap {fuel : ℕ} (cs : List Char)
    (hfuel : (cs.flatMap String.utf8EncodeChar).length ≤ fuel) :
    lossyChars fuel (cs.flatMap String.utf8EncodeChar) = cs := by
  induction cs generalizing fuel with
  | nil => cases fuel <;> rfl
  | cons c cs ih =>
    have hpos : 0 < (String.utf8EncodeChar c).length := by
      rw [String.length_utf8EncodeChar]
      exact c.utf8Size_pos
    rw [flatMap_cons] at hfuel ⊢
    rw [length_append] at hfuel
    obtain ⟨fuel, rfl⟩ : ∃ k, fuel = k + 1 := ⟨fuel - 1, by omega⟩
    obtain ⟨b, bs, hbs⟩ := exists_cons_of_length_pos hpos
    have hdecode : ((b :: bs) ++ cs.flatMap String.utf8EncodeChar).toByteArray.utf8DecodeChar? 0
        = some c := by
      rw [← hbs, toByteArray_append]
      exact ByteArray.utf8DecodeChar?_utf8EncodeChar_append
    have hdrop : ((b :: bs) ++ cs.flatMap String.utf8EncodeChar).drop c.utf8Size
        = cs.flatMap String.utf8EncodeChar :=
      drop_append_of_length _ (by rw [← hbs, String.length_utf8EncodeChar])
    rw [hbs] at hfuel ⊢
    simp only [cons_append] at hdecode hdrop ⊢
    simp only [lossyChars, hdecode, hdrop]
    rw [ih (by simp only [length_cons] at hfuel; omega)]

theorem fromUtf8Lossy_utf8 (s : String) : fromUtf8Lossy (utf8 s) = s := by
  rw [fromUtf8Lossy, utf8, lossyChars_flatMap _ le_rfl, String.ofList_toList]

def fromUtf8 (bs : Bytes) : Option String :=
  if utf8 (fromUtf8Lossy bs) = bs then some (fromUtf8Lossy bs) else none

theorem fromUtf8_eq_some_iff {bs : Bytes} {s : String} : fromUtf8 bs = some s ↔ utf8 s = bs := by
  unfold fromUtf8
  constructor
  · intro h
    split_ifs at h with hback
    cases h
    exact hback
  · rintro rfl
    rw [fromUtf8Lossy_utf8, if_pos rfl]

end Bytes
