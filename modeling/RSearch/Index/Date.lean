import RSearch.Lib.Json
import RSearch.Lib.Outcome

/-!
# The date grammar

`strict_date_optional_time||epoch_millis`, as the write path and the query language read it.  Lengths
and cuts are those of a text's UTF-8 bytes: a slice whose end falls inside a character unwinds, so what
slices returns in `Unwind`.
-/

namespace RSearch.Index

open List

inductive Panic where
  /-- A slice of a text ended inside a character. -/
  | notCharBoundary
  deriving DecidableEq

abbrev Unwind (α : Type) := Except Panic α

/-! ### Texts by their bytes -/

def byteLen (cs : List Char) : Nat := (cs.map Char.utf8Size).sum

def splitAtByte : Nat → List Char → Option (List Char × List Char)
  | 0, cs => some ([], cs)
  | _ + 1, [] => none
  | n + 1, c :: cs =>
    if c.utf8Size ≤ n + 1 then
      (splitAtByte (n + 1 - c.utf8Size) cs).map fun p => (c :: p.1, p.2)
    else none

def splitAt (n : Nat) (cs : List Char) : Unwind (List Char × List Char) :=
  match splitAtByte n cs with
  | some p => .ok p
  | none => .error .notCharBoundary

def splitOnce (c : Char) (cs : List Char) : Option (List Char × List Char) :=
  if c ∈ cs then some (cs.takeWhile (· ≠ c), (cs.dropWhile (· ≠ c)).tail) else none

def digits (n : Nat) (cs : List Char) : Option Nat :=
  if byteLen cs = n ∧ cs.all Char.isDigit then some (F64.natOfDigits cs) else none

/-! ### Dates, times and offsets -/

def isLeapYear (year : Nat) : Bool :=
  decide (year % 4 = 0 ∧ (year % 100 ≠ 0 ∨ year % 400 = 0))

def daysInMonth (year month : Nat) : Nat :=
  if month = 2 then if isLeapYear year then 29 else 28
  else if month = 4 ∨ month = 6 ∨ month = 9 ∨ month = 11 then 30
  else 31

structure Date where
  year : Nat
  month : Nat
  day : Nat
  month_mem : 1 ≤ month ∧ month ≤ 12
  day_mem : 1 ≤ day ∧ day ≤ daysInMonth year month

def Date.fromCalendarDate (year month day : Nat) : Option Date :=
  if hm : 1 ≤ month ∧ month ≤ 12 then
    if hd : 1 ≤ day ∧ day ≤ daysInMonth year month then some ⟨year, month, day, hm, hd⟩ else none
  else none

def Date.unixDay (d : Date) : ℤ :=
  let year : ℤ := if d.month ≤ 2 then d.year - 1 else d.year
  let era := year / 400
  let yearOfEra := year - era * 400
  let dayOfYear := (153 * (if d.month ≤ 2 then d.month + 9 else d.month - 3) + 2) / 5 + d.day - 1
  era * 146097 + (yearOfEra * 365 + yearOfEra / 4 - yearOfEra / 100 + dayOfYear) - 719468

structure Time where
  hour : Nat
  minute : Nat
  second : Nat
  nano : Nat
  hour_lt : hour < 24
  minute_lt : minute < 60
  second_lt : second < 60
  nano_lt : nano < 1000000000

def Time.fromHmsNano (hour minute second nano : Nat) : Option Time :=
  if h : hour < 24 ∧ minute < 60 ∧ second < 60 ∧ nano < 1000000000 then
    some ⟨hour, minute, second, nano, h.1, h.2.1, h.2.2.1, h.2.2.2⟩
  else none

def Time.midnight : Time := ⟨0, 0, 0, 0, by decide, by decide, by decide, by decide⟩

structure UtcOffset where
  seconds : ℤ
  deriving DecidableEq

def UtcOffset.utc : UtcOffset := ⟨0⟩

def UtcOffset.fromHms (hours minutes : ℤ) : Option UtcOffset :=
  if |hours| ≤ 25 ∧ |minutes| ≤ 59 then some ⟨hours * 3600 + minutes * 60⟩ else none

/-! ### The parser -/

def i64Max : ℤ := 2 ^ 63 - 1

def i64Min : ℤ := -2 ^ 63

def maxSafeMillis : ℤ := i64Max / 1000000

def clampMillis (millis : ℤ) : ℤ := max (-maxSafeMillis) (min millis maxSafeMillis)

/-- An epoch number of unknown unit as clamped epoch milliseconds.  The unit is read off the
magnitude. -/
def epochToMillis (value : ℤ) : ℤ :=
  let millis :=
    if value.natAbs ≤ 99999999999 then max i64Min (min (value * 1000) i64Max)
    else if value.natAbs ≤ 99999999999999 then value
    else if value.natAbs ≤ 99999999999999999 then value.tdiv 1000
    else value.tdiv 1000000
  clampMillis millis

def millisFrom (date : Date) (time : Time) (offset : UtcOffset) : ℤ :=
  let seconds := date.unixDay * 86400 + time.hour * 3600 + time.minute * 60 + time.second
  clampMillis (((seconds - offset.seconds) * 1000000000 + time.nano).tdiv 1000000)

def parseDate (value : List Char) : Option Date :=
  match value.splitOn '-' with
  | [y] => do
    let year ← digits 4 y
    Date.fromCalendarDate year 1 1
  | [y, m] => do
    let year ← digits 4 y
    let month ← digits 2 m
    Date.fromCalendarDate year month 1
  | [y, m, d] => do
    let year ← digits 4 y
    let month ← digits 2 m
    let day ← digits 2 d
    Date.fromCalendarDate year month day
  | _ => none

def parseFraction (fraction : List Char) : Option Nat :=
  if fraction = [] ∨ 9 < byteLen fraction ∨ ¬fraction.all Char.isDigit then none
  else some (F64.natOfDigits (fraction ++ List.replicate (9 - fraction.length) '0'))

def parseTime (value : List Char) : Option Time :=
  let clock := ((splitOnce '.' value).map Prod.fst).getD value
  let fraction := (splitOnce '.' value).map Prod.snd
  match clock.splitOn ':' with
  | [h, m] => do
    let hour ← digits 2 h
    let minute ← digits 2 m
    -- A fraction needs seconds to attach to.
    match fraction with
    | some _ => none
    | none => Time.fromHmsNano hour minute 0 0
  | [h, m, s] => do
    let hour ← digits 2 h
    let minute ← digits 2 m
    let second ← digits 2 s
    let nano ← match fraction with
      | some fraction => parseFraction fraction
      | none => some 0
    Time.fromHmsNano hour minute second nano
  | _ => none

def hoursMinutes (h m : List Char) : Option (Nat × Nat) := do
  let hours ← digits 2 h
  let minutes ← digits 2 m
  return (hours, minutes)

/-- Hours and minutes of an offset: around a colon if there is one, and cut by length alone
otherwise. -/
def offsetFields (rest : List Char) : Unwind (Option (Nat × Nat)) :=
  match splitOnce ':' rest with
  | some (h, m) => .ok (hoursMinutes h m)
  | none =>
    if byteLen rest = 2 then .ok ((digits 2 rest).map fun hours => (hours, 0))
    else if byteLen rest = 4 then (splitAt 2 rest).map fun p => hoursMinutes p.1 p.2
    else .ok none

def parseOffset (value : List Char) : Unwind (Option UtcOffset) :=
  if value = [] ∨ value = ['Z'] then .ok (some .utc)
  else do
    let (sign, rest) ← splitAt 1 value
    if sign ≠ ['+'] ∧ sign ≠ ['-'] then return none
    let sign : ℤ := if sign = ['+'] then 1 else -1
    (offsetFields rest).map (·.bind fun f => UtcOffset.fromHms (sign * f.1) (sign * f.2))

def startsOffset (c : Char) : Bool := c == 'Z' || c == '+' || c == '-'

def parseTimeOffset (date : Date) (rest : List Char) : Unwind (Option ℤ) :=
  match parseTime (rest.takeWhile (!startsOffset ·)) with
  | none => .ok none
  | some time =>
    (parseOffset (rest.dropWhile (!startsOffset ·))).map (Option.map (millisFrom date time))

def parseIso (value : List Char) : Unwind (Option ℤ) :=
  match parseDate (value.takeWhile (· ≠ 'T')) with
  | none => .ok none
  | some date =>
    if (value.dropWhile (· ≠ 'T')).tail = [] then .ok (some (millisFrom date .midnight .utc))
    else parseTimeOffset date (value.dropWhile (· ≠ 'T')).tail

def parseI64 (value : List Char) : Option ℤ :=
  let n : ℤ :=
    match value with
    | '-' :: ds => -F64.natOfDigits ds
    | ds => F64.natOfDigits ds
  if i64Min ≤ n ∧ n ≤ i64Max then some n else none

def parseEpoch (value : List Char) : Option ℤ :=
  let ds := match value with | '-' :: ds => ds | ds => ds
  if ds ≠ [] ∧ ds.all Char.isDigit then (parseI64 value).map epochToMillis else none

/-- A date literal as epoch milliseconds.  A text that reads as a date is one, before it can be an
epoch stamp. -/
def parseDateString (value : List Char) : Unwind (Option ℤ) :=
  if value = [] then .ok none
  else do
    match ← parseIso value with
    | some millis => return some millis
    | none => return parseEpoch value

/-! ### Where a parse unwinds -/

@[simp] theorem byteLen_cons (c : Char) (cs : List Char) :
    byteLen (c :: cs) = c.utf8Size + byteLen cs := rfl

theorem eq_append_of_splitAtByte :
    ∀ {n : Nat} {cs : List Char} {p : List Char × List Char},
      splitAtByte n cs = some p → cs = p.1 ++ p.2 ∧ byteLen p.1 = n := by
  intro n cs
  induction cs generalizing n with
  | nil =>
    intro p h
    cases n with
    | zero => cases h; exact ⟨rfl, rfl⟩
    | succ n => cases h
  | cons c cs ih =>
    intro p h
    cases n with
    | zero => cases h; exact ⟨rfl, rfl⟩
    | succ n =>
      rw [splitAtByte] at h
      split at h
      · obtain ⟨q, hq, rfl⟩ := Option.map_eq_some_iff.mp h
        obtain ⟨rfl, hlen⟩ := ih hq
        exact ⟨rfl, by simp only [byteLen_cons]; omega⟩
      · cases h

theorem splitAtByte_append : ∀ (a b : List Char), splitAtByte (byteLen a) (a ++ b) = some (a, b) := by
  intro a b
  induction a with
  | nil =>
    cases b <;> rfl
  | cons c a ih =>
    obtain ⟨n, hn⟩ : ∃ n, byteLen (c :: a) = n + 1 :=
      Nat.exists_eq_add_one.mpr (Nat.add_pos_left c.utf8Size_pos _)
    have hrest : n + 1 - c.utf8Size = byteLen a := by
      rw [byteLen_cons] at hn
      omega
    have hle : c.utf8Size ≤ n + 1 := by
      rw [byteLen_cons] at hn
      omega
    rw [hn, cons_append, splitAtByte, if_pos hle, hrest, ih]
    rfl

def IsBoundary (n : Nat) (cs : List Char) : Prop := ∃ a b, cs = a ++ b ∧ byteLen a = n

variable {cs rest as bs value : List Char} {p : Panic} {c : Char}

theorem splitAtByte_isSome_iff {n : Nat} : (splitAtByte n cs).isSome ↔ IsBoundary n cs := by
  constructor
  · intro h
    obtain ⟨p, hp⟩ := Option.isSome_iff_exists.mp h
    exact ⟨p.1, p.2, eq_append_of_splitAtByte hp⟩
  · rintro ⟨a, b, rfl, rfl⟩
    rw [splitAtByte_append]
    rfl

theorem splitAt_eq_error_iff {n : Nat} : splitAt n cs = .error p ↔ ¬IsBoundary n cs := by
  rw [← splitAtByte_isSome_iff]
  unfold splitAt
  cases splitAtByte n cs <;> cases p <;> simp

theorem splitOnce_eq_none_iff : splitOnce c cs = none ↔ c ∉ cs := by
  unfold splitOnce
  split <;> simp_all

/-- Hours and minutes that cannot be cut apart: four bytes without a colon, and a character across
the middle. -/
structure Uncuttable (rest : List Char) : Prop where
  noColon : ':' ∉ rest
  four : byteLen rest = 4
  across : ¬IsBoundary 2 rest

theorem offsetFields_eq_error_iff : offsetFields rest = .error p ↔ Uncuttable rest := by
  unfold offsetFields
  split
  case h_1 h m hcolon =>
    refine iff_of_false (by simp) fun hu => ?_
    rw [splitOnce_eq_none_iff.mpr hu.noColon] at hcolon
    cases hcolon
  case h_2 hcolon =>
    have hno := splitOnce_eq_none_iff.mp hcolon
    by_cases hfour : byteLen rest = 4
    · rw [if_neg (by omega), if_pos hfour, Except.map_eq_error_iff, splitAt_eq_error_iff]
      exact ⟨fun h => ⟨hno, hfour, h⟩, Uncuttable.across⟩
    · refine iff_of_false ?_ fun hu => hfour hu.four
      split <;> simp

theorem parseOffset_eq_error_iff (hc : startsOffset c = true) :
    parseOffset (c :: rest) = .error p ↔ (c = '+' ∨ c = '-') ∧ Uncuttable rest := by
  have hc' : (c = 'Z' ∨ c = '+') ∨ c = '-' := by simpa [startsOffset] using hc
  have hsize : byteLen [c] = 1 := by
    obtain (rfl | rfl) | rfl := hc' <;> rfl
  have hsplit : splitAt 1 (c :: rest) = .ok ([c], rest) := by
    have h := splitAtByte_append [c] rest
    rw [hsize] at h
    rw [splitAt, show c :: rest = [c] ++ rest from rfl, h]
  unfold parseOffset
  split
  case isTrue hz =>
    obtain hz | hz := hz
    · cases hz
    · cases hz
      simp
  case isFalse hz =>
    simp only [hsplit, bind, Except.bind]
    split
    case isTrue hout =>
      refine iff_of_false (by simp [pure, Except.pure]) ?_
      rintro ⟨rfl | rfl, -⟩
      · exact hout.1 rfl
      · exact hout.2 rfl
    case isFalse hin =>
      have hsign : c = '+' ∨ c = '-' := by
        by_contra h
        exact hin ⟨fun e => h (.inl (List.cons.inj e).1), fun e => h (.inr (List.cons.inj e).1)⟩
      rw [Except.map_eq_error_iff, offsetFields_eq_error_iff]
      exact ⟨fun h => ⟨hsign, h⟩, And.right⟩

def CutsOffset (rest : List Char) : Prop :=
  ∃ time sign tail,
    rest = time ++ sign :: tail ∧ (∀ c ∈ time, startsOffset c = false) ∧
      (parseTime time).isSome ∧ (sign = '+' ∨ sign = '-') ∧ Uncuttable tail

/-- **A date whose offset cuts a character**: a date, `T`, and what `CutsOffset` describes. -/
def CutsChar (value : List Char) : Prop :=
  ∃ date rest,
    value = date ++ 'T' :: rest ∧ 'T' ∉ date ∧ (parseDate date).isSome ∧ CutsOffset rest

theorem takeWhile_append_cons {p : Char → Bool} (has : ∀ a ∈ as, p a) (hc : p c = false) :
    (as ++ c :: bs).takeWhile p = as := by
  rw [takeWhile_append_of_pos has, takeWhile_cons_of_neg (by simp [hc]), append_nil]

theorem dropWhile_append_cons {p : Char → Bool} (has : ∀ a ∈ as, p a) (hc : p c = false) :
    (as ++ c :: bs).dropWhile p = c :: bs := by
  rw [dropWhile_append_of_pos has, dropWhile_cons_of_neg (by simp [hc])]

theorem head_dropWhile_false {p : Char → Bool} (h : cs.dropWhile p = c :: bs) : p c = false := by
  have hne : cs.dropWhile p ≠ [] := by simp [h]
  simpa only [h, head_cons] using head_dropWhile_not p hne

theorem parseTimeOffset_eq_error_iff {date : Date} :
    parseTimeOffset date rest = .error p ↔ CutsOffset rest := by
  constructor
  · intro h
    unfold parseTimeOffset at h
    cases htime : parseTime (rest.takeWhile (!startsOffset ·)) with
    | none =>
      rw [htime] at h
      cases h
    | some time =>
      rw [htime] at h
      have herr := Except.map_eq_error_iff.mp h
      cases hoff : rest.dropWhile (!startsOffset ·) with
      | nil =>
        rw [hoff] at herr
        cases herr
      | cons sign tail =>
        have hstart : startsOffset sign = true := by simpa using head_dropWhile_false hoff
        rw [hoff, parseOffset_eq_error_iff hstart] at herr
        refine ⟨rest.takeWhile (!startsOffset ·), sign, tail, ?_, fun c hc => ?_, ?_, herr⟩
        · rw [← hoff, takeWhile_append_dropWhile]
        · simpa using mem_takeWhile_imp hc
        · rw [htime]
          rfl
  · rintro ⟨time, sign, tail, rfl, htime, hparses, hsign, hu⟩
    have hbefore : ∀ c ∈ time, (!startsOffset c) = true := by simpa using htime
    have hstart : startsOffset sign = true := by obtain rfl | rfl := hsign <;> rfl
    obtain ⟨t, ht⟩ := Option.isSome_iff_exists.mp hparses
    rw [parseTimeOffset, takeWhile_append_cons hbefore (by simp [hstart]),
      dropWhile_append_cons hbefore (by simp [hstart]), ht]
    exact Except.map_eq_error_iff.mpr ((parseOffset_eq_error_iff hstart).mpr ⟨hsign, hu⟩)

theorem parseIso_eq_error_iff : parseIso value = .error p ↔ CutsChar value := by
  constructor
  · intro h
    unfold parseIso at h
    cases hdate : parseDate (value.takeWhile (· ≠ 'T')) with
    | none =>
      rw [hdate] at h
      cases h
    | some date =>
      simp only [hdate] at h
      split at h
      · cases h
      case isFalse hne =>
        cases hrest : value.dropWhile (· ≠ 'T') with
        | nil =>
          rw [hrest] at hne
          exact absurd rfl hne
        | cons c rest =>
          have hc : c = 'T' := by simpa using head_dropWhile_false hrest
          subst hc
          rw [hrest, tail_cons, parseTimeOffset_eq_error_iff] at h
          refine ⟨value.takeWhile (· ≠ 'T'), rest, ?_, fun hT => ?_, ?_, h⟩
          · rw [← hrest, takeWhile_append_dropWhile]
          · simpa using mem_takeWhile_imp hT
          · rw [hdate]
            rfl
  · rintro ⟨date, rest, rfl, hT, hparses, hcut⟩
    have hbefore : ∀ c ∈ date, decide (c ≠ 'T') = true := by
      intro c hc
      exact decide_eq_true fun heq => hT (heq ▸ hc)
    have hne : rest ≠ [] := by
      rintro rfl
      obtain ⟨time, sign, tail, h, -⟩ := hcut
      simp at h
    obtain ⟨d, hd⟩ := Option.isSome_iff_exists.mp hparses
    rw [parseIso, takeWhile_append_cons hbefore (by simp), hd]
    simp only
    rw [dropWhile_append_cons hbefore (by simp), tail_cons, if_neg hne, parseTimeOffset_eq_error_iff]
    exact hcut

theorem parseDateString_eq_error_iff : parseDateString value = .error p ↔ CutsChar value := by
  unfold parseDateString
  split
  case isTrue hnil =>
    subst hnil
    refine iff_of_false (by simp) ?_
    rintro ⟨date, rest, h, -⟩
    simp at h
  case isFalse hne =>
    rw [← parseIso_eq_error_iff (p := p)]
    cases parseIso value with
    | error q => rfl
    | ok millis => cases millis <;> simp [bind, Except.bind, pure, Except.pure]

end RSearch.Index
