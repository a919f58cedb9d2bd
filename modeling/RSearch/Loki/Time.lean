import RSearch.Loki.Selector

/-!
# The times of a Loki query

`parseTimeMs` finds the unit of an integer `start` or `end` by its magnitude and returns milliseconds.
These go into the `range` of the selector's query, and there the search layer reads them as a timestamp
literal: it finds the unit again, by the same thresholds.
-/

namespace RSearch.Loki

open List F64

open Index (clampMillis epochToMillis maxSafeMillis i64Max i64Min)
open Search

/-! ### Integers as texts -/

def splitSign : List Char → Bool × List Char
  | '-' :: ds => (true, ds)
  | '+' :: ds => (false, ds)
  | ds => (false, ds)

def integerOf (text : List Char) : Option ℤ :=
  let (negative, ds) := splitSign text
  if ds ≠ [] ∧ ds.all Char.isDigit then
    some (if negative then -F64.natOfDigits ds else F64.natOfDigits ds)
  else none

def parseI128 (text : List Char) : Option ℤ :=
  (integerOf text).filter fun n => decide (-2 ^ 127 ≤ n ∧ n < 2 ^ 127)

def abs128 (n : ℤ) : ℤ := if n = -2 ^ 127 then n else |n|

def millisOf (n : ℤ) : ℤ :=
  if 100000000000000000 ≤ abs128 n then n.tdiv 1000000
  else if 100000000000000 ≤ abs128 n then n.tdiv 1000
  else if 100000000000 ≤ abs128 n then n
  else (n * 1000).bmod (2 ^ 128)

def millisOfSeconds (secs : F64) : ℤ :=
  if F64.infBits < secs.magnitude then 0 else (secs.mul (F64.ofInt 1000)).toInt64

/-- **A time parameter.**  RFC 3339 texts are read by another library. -/
def parseTimeMs (rfc3339 : List Char → Option ℤ) (text : List Char) : Option ℤ :=
  match parseI128 text with
  | some n =>
    let ms := millisOf n
    if i64Min ≤ ms ∧ ms ≤ i64Max then some ms else none
  | none =>
    match F64.ofChars text with
    | some secs => some (millisOfSeconds secs)
    | none => rfc3339 text

/-! ### The second conversion -/

def Settles (ms : ℤ) : Prop := epochToMillis ms = clampMillis ms

theorem tdiv_cases (n k : ℤ) : 0 ≤ n ∧ n.tdiv k = n / k ∨ n < 0 ∧ n.tdiv k = -(-n / k) := by
  rcases le_or_gt 0 n with hn | hn
  · exact .inl ⟨hn, Int.tdiv_eq_ediv_of_nonneg hn⟩
  · refine .inr ⟨hn, ?_⟩
    rw [← Int.tdiv_eq_ediv_of_nonneg (by omega), Int.neg_tdiv, neg_neg]

theorem settles_iff (ms : ℤ) : Settles ms ↔ ms = 0 ∨ 100000000000 ≤ ms.natAbs ∧ ms.natAbs < 100000000000000 ∨
    9223372036854000 ≤ ms.natAbs ∧ ms.natAbs < 100000000000000000 ∨
    9223372036854000000 ≤ ms.natAbs := by
  have hmax : maxSafeMillis = 9223372036854 := by decide
  have hi64 : i64Max = 9223372036854775807 := by decide
  have hi64' : i64Min = -9223372036854775808 := by decide
  unfold Settles epochToMillis clampMillis
  simp only
  split_ifs with hsecs hmillis hmicros
  · omega
  · omega
  · rcases tdiv_cases ms 1000 with ⟨hsign, hdiv⟩ | ⟨hsign, hdiv⟩ <;> omega
  · rcases tdiv_cases ms 1000000 with ⟨hsign, hdiv⟩ | ⟨hsign, hdiv⟩ <;> omega

/-! ### From the parameter to its milliseconds -/

/-- **An integer parameter whose milliseconds are converted once**: zero, from `10 ^ 8` on and below
`10 ^ 20`, or so large that the milliseconds stay beyond the supported range. -/
def Settled (n : ℤ) : Prop :=
  n = 0 ∨ 100000000 ≤ n.natAbs ∧ n.natAbs < 100000000000000000000 ∨
    9223372036854000000000 ≤ n.natAbs ∧ n.natAbs < 100000000000000000000000 ∨
    9223372036854000000000000 ≤ n.natAbs

instance : DecidablePred Settled := fun n => inferInstanceAs (Decidable (n = 0 ∨ _ ∨ _ ∨ _))

variable {n start stop : ℤ}

theorem settles_millisOf_iff (hlo : -2 ^ 127 ≤ n) (hhi : n < 2 ^ 127) :
    Settles (millisOf n) ↔ Settled n := by
  rw [settles_iff, Settled]
  by_cases hleast : n = -2 ^ 127
  · subst hleast
    decide
  · have habs : abs128 n = n.natAbs := by rw [abs128, if_neg hleast, Int.abs_eq_natAbs]
    unfold millisOf
    split_ifs with hnanos hmicros hmillis
    · rcases tdiv_cases n 1000000 with ⟨hsign, hdiv⟩ | ⟨hsign, hdiv⟩ <;> omega
    · rcases tdiv_cases n 1000 with ⟨hsign, hdiv⟩ | ⟨hsign, hdiv⟩ <;> omega
    · omega
    · rw [Int.bmod_eq_of_le (by omega) (by omega)]
      omega

/-! ### Integers beyond 128 bits -/

section Long

variable {text ds : List Char} {negative : Bool}

theorem toLower_of_isDigit {c : Char} (h : c.isDigit) : c.toLower = c := by
  unfold Char.toLower
  simp only [Char.isDigit, Bool.and_eq_true, decide_eq_true_eq] at h
  rw [dif_neg]
  intro hupper
  have hle := h.2
  have hge := hupper.1
  simp only [ge_iff_le, UInt32.le_iff_toNat_le] at hle hge
  simp at hle hge
  omega

theorem map_toLower_ne (hnil : ds ≠ []) (hdigits : ds.all Char.isDigit) {c : Char} {word : List Char}
    (hc : c.isDigit = false) : ds.map Char.toLower ≠ c :: word := by
  obtain ⟨d, ds, rfl⟩ := exists_cons_of_ne_nil hnil
  rw [all_cons, Bool.and_eq_true] at hdigits
  intro heq
  rw [map_cons, toLower_of_isDigit hdigits.1] at heq
  cases heq
  rw [hc] at hdigits
  exact absurd hdigits.1 Bool.false_ne_true

theorem ofChars_integer (hsplit : splitSign text = (negative, ds)) (hnil : ds ≠ [])
    (hdigits : ds.all Char.isDigit) :
    ofChars text = some (round negative (natOfDigits ds)) := by
  have hwhole : ds.takeWhile Char.isDigit = ds :=
    takeWhile_eq_self_iff.mpr fun c hc => all_eq_true.mp hdigits c hc
  have hrest : ds.dropWhile Char.isDigit = [] :=
    dropWhile_eq_nil_iff.mpr fun c hc => all_eq_true.mp hdigits c hc
  have hsigned : ofChars text = let word := (splitSign text).2.map Char.toLower
      let sign := if (splitSign text).1 then 2 ^ 63 else 0
      if word = "inf".toList ∨ word = "infinity".toList then some ⟨.ofNat (infBits + sign)⟩
      else if word = "nan".toList then some ⟨.ofNat (infBits + 2 ^ 51 + sign)⟩
      else decimalOfChars (splitSign text).1 (splitSign text).2 := rfl
  have hinf : ¬(ds.map Char.toLower = "inf".toList ∨ ds.map Char.toLower = "infinity".toList) :=
    not_or.mpr ⟨map_toLower_ne hnil hdigits (by decide), map_toLower_ne hnil hdigits (by decide)⟩
  have hnan : ds.map Char.toLower ≠ "nan".toList := map_toLower_ne hnil hdigits (by decide)
  rw [hsigned, hsplit]
  simp only [if_neg hinf, if_neg hnan, decimalOfChars, hwhole, hrest, hnil, false_and, if_false,
    append_nil, length_nil]
  norm_num

theorem integerOf_eq_some {n : ℤ} (h : integerOf text = some n) : ∃ negative ds,
    splitSign text = (negative, ds) ∧ ds ≠ [] ∧ ds.all Char.isDigit = true ∧
      n = if negative then -(natOfDigits ds : ℤ) else natOfDigits ds := by
  unfold integerOf at h
  simp only at h
  split_ifs at h with hds hneg
  · cases h
    exact ⟨(splitSign text).1, (splitSign text).2, rfl, hds.1, hds.2, by rw [if_pos hneg]⟩
  · cases h
    exact ⟨(splitSign text).1, (splitSign text).2, rfl, hds.1, hds.2, by rw [if_neg hneg]⟩

theorem parseTimeMs_long (rfc3339 : List Char → Option ℤ) {n : ℤ} (hint : integerOf text = some n)
    (hlong : parseI128 text = none) :
    parseTimeMs rfc3339 text = some (if n < 0 then i64Min else i64Max) := by
  have hthousand : 1 ≤ (ofInt 1000).value := by decide +kernel
  obtain ⟨negative, ds, hsplit, hnil, hdigits, hn⟩ := integerOf_eq_some hint
  have hbeyond : ¬(-2 ^ 127 ≤ n ∧ n < 2 ^ 127) := by
    rw [parseI128, hint, Option.filter_eq_none_iff] at hlong
    simpa using hlong n rfl
  have hfar : (2 : ℚ) ^ (63 : ℤ) ≤ |((natOfDigits ds : ℕ) : ℚ)| := by
    have hle : 2 ^ 63 ≤ natOfDigits ds := by
      split_ifs at hn <;> omega
    exact_mod_cast hle
  have hnumber : ¬infBits < (round negative (natOfDigits ds)).magnitude := by
    rw [magnitude_round]
    exact not_lt.mpr (roundMagnitude_le_infBits _)
  simp only [parseTimeMs, hlong, ofChars_integer hsplit hnil hdigits, millisOfSeconds, if_neg hnumber]
  cases negative with
  | true =>
    have hvalue := value_round_le_neg (by norm_num) (by norm_num) hfar
    have hneg : n < 0 := by
      rw [if_pos rfl] at hn
      omega
    rw [toInt64_of_le_neg (value_mul_le_neg (by norm_num) (by norm_num) hvalue hthousand),
      if_pos hneg]
    rfl
  | false =>
    have hvalue := two_zpow_le_value_round (by norm_num) (by norm_num) hfar
    have hpos : ¬n < 0 := by
      rw [if_neg Bool.false_ne_true] at hn
      omega
    rw [toInt64_of_two_pow_le
      (two_zpow_le_value_mul (by norm_num) (by norm_num) hvalue hthousand), if_neg hpos]
    rfl

end Long

theorem settles_parseTimeMs_iff {rfc3339 : List Char → Option ℤ} {text : List Char} {ms : ℤ}
    (hint : integerOf text = some n) (hms : parseTimeMs rfc3339 text = some ms) :
    ms ≤ i64Max ∧ (Settles ms ↔ Settled n) := by
  have hmax : i64Max = 9223372036854775807 := by decide
  have hmin : i64Min = -9223372036854775808 := by decide
  cases hlong : parseI128 text with
  | none =>
    have hbeyond : ¬(-2 ^ 127 ≤ n ∧ n < 2 ^ 127) := by
      rw [parseI128, hint, Option.filter_eq_none_iff] at hlong
      simpa using hlong n rfl
    rw [parseTimeMs_long rfc3339 hint hlong] at hms
    have hsettled : Settled n := by
      unfold Settled
      omega
    have hsettles : Settles ms := by
      rw [settles_iff]
      cases hms
      split_ifs <;> omega
    refine ⟨?_, iff_of_true hsettles hsettled⟩
    cases hms
    split_ifs <;> omega
  | some m =>
    rw [parseTimeMs, hlong] at hms
    simp only at hms
    split_ifs at hms with hfits
    cases hms
    rw [parseI128, hint, Option.filter_eq_some_iff] at hlong
    obtain ⟨hm, hrange⟩ := hlong
    cases hm
    obtain ⟨hlo, hhi⟩ := of_decide_eq_true hrange
    exact ⟨hfits.2, settles_millisOf_iff hlo hhi⟩

/-! ### The interval of the search -/

/-- **The search layer asks for a document's timestamp**: it is in the interval that splits are pruned
by, and the translated query matches it. -/
def InsideRange (schema : Schema) (now : Option ℤ) (start stop : ℤ) (d : Doc) : Prop :=
  ∃ i q, extractTimeBounds now (selectorJson start stop [] []) = .ok i ∧ i.Contains d.millis ∧
    translateQuery schema now (selectorJson start stop [] []) = .ok q ∧ q.matches schema d = true

theorem translateQuery_range_only {schema : Schema} {now : Option ℤ} {start stop : ℤ}
    (hstart : start ≤ i64Max) (hstop : stop ≤ i64Max) :
    ∃ q, translateQuery schema now (selectorJson start stop [] []) = .ok q := by
  have hitems : translateItems schema now [rangeJson start stop] = .ok [.range
      (.included (epochToMillis start * 1000000)) (.included (epochToMillis stop * 1000000))] := by
    rw [translateItems, translateQuery_rangeJson hstart hstop]
    rfl
  refine ⟨boolQuery [.range (.included (epochToMillis start * 1000000))
    (.included (epochToMillis stop * 1000000))] [] [], Except.bind_eq_ok_iff.mpr ⟨[], rfl, ?_⟩⟩
  refine Except.bind_eq_ok_iff.mpr ⟨_, hitems, Except.bind_eq_ok_iff.mpr ⟨[], rfl, ?_⟩⟩
  exact Except.bind_eq_ok_iff.mpr ⟨[], rfl, rfl⟩

theorem insideRange_iff {schema : Schema} {now : Option ℤ} {d : Doc} (hstart : start ≤ i64Max)
    (hstop : stop ≤ i64Max) : InsideRange schema now start stop d ↔
      epochToMillis start ≤ d.millis ∧ d.millis ≤ epochToMillis stop := by
  have hcontains : (applied start stop).Contains d.millis ↔
      epochToMillis start ≤ d.millis ∧ d.millis ≤ epochToMillis stop := by
    simp [applied, Interval.Contains]
  constructor
  · rintro ⟨i, q, -, -, hq, hmatches⟩
    exact hcontains.mp ((matches_selectorJson hstart hstop hq).mp hmatches).1
  · intro hinside
    obtain ⟨q, hq⟩ := @translateQuery_range_only schema now start stop hstart hstop
    refine ⟨_, q, extractTimeBounds_selectorJson hstart hstop, hcontains.mpr hinside, hq, ?_⟩
    exact (matches_selectorJson hstart hstop hq).mpr ⟨hcontains.mpr hinside, by simp, by simp⟩

/-- **The unit conversion is applied once**: the search layer's interval is the one asked for, clamped to
the supported range, and the documents inside are those whose milliseconds lie in it. -/
structure ConvertedOnce (start stop : ℤ) : Prop where
  interval : ∀ now, extractTimeBounds now (selectorJson start stop [] []) =
    .ok ⟨some (clampMillis start), some (clampMillis stop)⟩
  inside : ∀ schema now d, InsideRange schema now start stop d ↔
    clampMillis start ≤ d.millis ∧ d.millis ≤ clampMillis stop

theorem convertedOnce_iff (hstart : start ≤ i64Max) (hstop : stop ≤ i64Max) :
    ConvertedOnce start stop ↔ Settles start ∧ Settles stop := by
  constructor
  · intro h
    have hinterval := h.interval none
    rw [extractTimeBounds_selectorJson hstart hstop, applied] at hinterval
    injection hinterval with hinterval
    injection hinterval with hlower hupper
    exact ⟨Option.some.inj hlower, Option.some.inj hupper⟩
  · rintro ⟨hlower, hupper⟩
    refine ⟨?_, ?_⟩
    · intro now
      rw [extractTimeBounds_selectorJson hstart hstop, applied, hlower, hupper]
    · intro schema now d
      rw [insideRange_iff hstart hstop, hlower, hupper]

/-- **The search layer applies the interval that was asked for exactly if both integers are settled.** -/
theorem loki_range_iff (rfc3339 : List Char → Option ℤ) {startText stopText : List Char}
    {m n start stop : ℤ} (hm : integerOf startText = some m) (hn : integerOf stopText = some n)
    (hstart : parseTimeMs rfc3339 startText = some start)
    (hstop : parseTimeMs rfc3339 stopText = some stop) :
    ConvertedOnce start stop ↔ Settled m ∧ Settled n := by
  obtain ⟨hstartFits, hstartIff⟩ := settles_parseTimeMs_iff hm hstart
  obtain ⟨hstopFits, hstopIff⟩ := settles_parseTimeMs_iff hn hstop
  rw [convertedOnce_iff hstartFits hstopFits, hstartIff, hstopIff]

/-- An hour in nanoseconds is converted once. -/
theorem loki_range_iff_nanoseconds : ConvertedOnce 1700000000000 1700003600000 :=
  (@loki_range_iff (fun _ => none) "1700000000000000000".toList "1700003600000000000".toList
    1700000000000000000 1700003600000000000 _ _ (by decide) (by decide) (by decide)
    (by decide)).mpr (by decide)

/-- **Between second 1000 and second 2000** the document of second 1500 is not found: the milliseconds
of the bounds are taken for seconds once more. -/
theorem loki_range_converted_twice :
    parseTimeMs (fun _ => none) "1000".toList = some 1000000 ∧
      parseTimeMs (fun _ => none) "2000".toList = some 2000000 ∧
      clampMillis 1000000 ≤ atFifteenHundred.millis ∧
      atFifteenHundred.millis ≤ clampMillis 2000000 ∧
      ¬InsideRange timestampOnly none 1000000 2000000 atFifteenHundred := by
  rw [insideRange_iff (by decide) (by decide)]
  decide

end RSearch.Loki
