import RSearch.Search.Query
import RSearch.Lib.FloatBounds

/-!
# A timestamp literal in a document and in a query

A document's timestamp is read by `parseTimestamp`, a bound of a range query by `parseTimeMillis`.  An
integer literal that does *not* fit 64 bits is a double for the JSON parser, and there they part: the
query counts any double in seconds, the document's side casts a large one back to an integer whose unit
`epochToMillis` finds.
-/

namespace RSearch.Search

open Option F64

open Json (Value Number)
open Index (CutsChar parseDateString parseTimestamp numberMillis epochToMillis clampMillis maxSafeMillis
  i64Max i64Min)

/-! ### Literals -/

structure IntegerLiteral where
  negative : Bool
  digits : ℕ
  deriving DecidableEq

def IntegerLiteral.value (l : IntegerLiteral) : ℤ := if l.negative then -l.digits else l.digits

/-- How the JSON parser reads an integer literal that does not fit 64 bits: as a double, if there is
one, which is finite and not nearer to zero than the integers that fit. -/
structure LongIntegers where
  read : IntegerLiteral → Option F64
  finite : ∀ {l f}, read l = some f → f.isFinite
  positive : ∀ {l f}, read l = some f → l.negative = false → 2 ^ 64 ≤ l.digits →
    (2 : ℚ) ^ (63 : ℤ) ≤ f.value
  negative : ∀ {l f}, read l = some f → l.negative = true → 2 ^ 63 < l.digits →
    f.value ≤ -(2 : ℚ) ^ (63 : ℤ)

/-- The number the JSON parser makes of a literal.  A literal zero with a sign is a double, too. -/
def IntegerLiteral.read (L : LongIntegers) (l : IntegerLiteral) : Option Number :=
  if l.negative then
    if l.digits = 0 then some (.float (F64.round true 0))
    else if l.digits ≤ 2 ^ 63 then some (.negInt l.value)
    else (L.read l).map .float
  else if l.digits < 2 ^ 64 then some (.posInt l.digits)
  else (L.read l).map .float

inductive TimeLiteral where
  | integer (l : IntegerLiteral)
  | text (s : String)
  deriving DecidableEq

def TimeLiteral.read (L : LongIntegers) : TimeLiteral → Option Value
  | .integer l => (l.read L).map .number
  | .text s => some (.string s)

/-- **The literal fits**: an integer fits a signed 64-bit integer, and a text has no offset that cuts a
character. -/
def TimeLiteral.Fits : TimeLiteral → Prop
  | .integer l => i64Min ≤ l.value ∧ l.value ≤ i64Max
  | .text s => ¬CutsChar s.toList

/-- **Both sides read a value alike**: they refuse it, or they read it as the same milliseconds, within
the supported range. -/
def ReadAlike (now : Option ℤ) (value : Value) : Prop :=
  ∃ read, parseTimeMillis now value = .ok read ∧ parseTimestamp value = .ok read ∧
    ∀ ms ∈ read, -maxSafeMillis ≤ ms ∧ ms ≤ maxSafeMillis

/-! ### The supported range -/

theorem clampMillis_safe (ms : ℤ) :
    -maxSafeMillis ≤ clampMillis ms ∧ clampMillis ms ≤ maxSafeMillis := by
  have : (0 : ℤ) ≤ maxSafeMillis := by decide
  unfold clampMillis
  omega

theorem epochToMillis_safe (n : ℤ) :
    -maxSafeMillis ≤ epochToMillis n ∧ epochToMillis n ≤ maxSafeMillis :=
  clampMillis_safe _

variable {value : List Char}

theorem millis_of_parseIso {ms : ℤ} (h : Index.parseIso value = .ok (some ms)) :
    -maxSafeMillis ≤ ms ∧ ms ≤ maxSafeMillis := by
  unfold Index.parseIso at h
  split at h
  · cases h
  · split_ifs at h
    · cases h
      exact clampMillis_safe _
    · unfold Index.parseTimeOffset at h
      split at h
      · cases h
      · obtain ⟨offset, -, hmillis⟩ := Except.map_eq_ok_iff.mp h
        obtain ⟨_, -, rfl⟩ := map_eq_some_iff.mp hmillis
        exact clampMillis_safe _

theorem millis_of_parseDateString {ms : ℤ} (h : parseDateString value = .ok (some ms)) :
    -maxSafeMillis ≤ ms ∧ ms ≤ maxSafeMillis := by
  unfold Index.parseDateString at h
  split_ifs at h
  · cases h
  · obtain ⟨iso, hiso, h⟩ := Except.of_bind h
    cases iso with
    | some millis =>
      cases h
      exact millis_of_parseIso hiso
    | none =>
      injection h with h
      unfold Index.parseEpoch at h
      simp only at h
      split_ifs at h
      obtain ⟨n, -, rfl⟩ := map_eq_some_iff.mp h
      exact epochToMillis_safe n

/-! ### Numbers -/

section Numbers

variable {now : Option ℤ} {n : Number}

theorem readAlike_of_asI64 {i : ℤ} (h : n.asI64 = some i) : ReadAlike now (.number n) := by
  refine ⟨some (epochToMillis i), ?_, ?_, ?_⟩
  · simp only [parseTimeMillis, h]
  · simp only [parseTimestamp, numberMillis, h]
  · intro ms hms
    cases hms
    exact epochToMillis_safe i

theorem not_readAlike_of_far (hi64 : n.asI64 = none) (hfinite : n.asF64.isFinite)
    (hfar : (2 : ℚ) ^ (63 : ℤ) ≤ n.asF64.value ∨ n.asF64.value ≤ -(2 : ℚ) ^ (63 : ℤ)) :
    ¬ReadAlike now (.number n) := by
  rintro ⟨read, hquery, hindex, -⟩
  have hsame := hquery.trans hindex.symm
  have hthousand : 1 ≤ (ofInt 1000).value := by decide +kernel
  have hlarge : ¬|n.asF64.value| < 100000000000 := by
    rw [not_lt, le_abs]
    have : (100000000000 : ℚ) ≤ 2 ^ (63 : ℤ) := by norm_num
    rcases hfar with hfar | hfar
    · exact .inl (this.trans hfar)
    · exact .inr (this.trans (le_neg.mpr hfar))
  simp only [parseTimeMillis, parseTimestamp, numberMillis, hi64, hfinite, hlarge, if_true, if_false,
    not_true_eq_false, Except.ok.injEq, some.injEq] at hsame
  rcases hfar with hfar | hfar
  · rw [toInt64_of_two_pow_le hfar, toInt64_of_two_pow_le
      (two_zpow_le_value_mul (by norm_num) (by norm_num) hfar hthousand)] at hsame
    revert hsame
    decide
  · rw [toInt64_of_le_neg hfar, toInt64_of_le_neg
      (value_mul_le_neg (by norm_num) (by norm_num) hfar hthousand)] at hsame
    revert hsame
    decide

theorem readAlike_negZero : ReadAlike now (.number (.float (round true 0))) := by
  have hfinite : (round true 0).isFinite = true := by decide +kernel
  have hsmall : |(round true 0).value| < 100000000000 := by decide +kernel
  have hmillis : ((round true 0).mul (ofInt 1000)).toInt64 = 0 := by decide +kernel
  have hindex : parseTimestamp (.number (.float (round true 0))) = .ok (some 0) := by
    simp only [parseTimestamp, numberMillis, Number.asI64, Number.asF64, hfinite, hsmall, hmillis,
      not_true_eq_false, if_false, if_true]
    rfl
  have hquery : parseTimeMillis now (.number (.float (round true 0))) = .ok (some 0) := by
    simp [parseTimeMillis, Number.asI64, Number.asF64, hfinite, hmillis]
  refine ⟨some 0, hquery, hindex, ?_⟩
  intro ms hms
  cases hms
  exact clampMillis_safe 0

end Numbers

/-! ### Where the document and the query read a literal alike -/

section Literals

variable {L : LongIntegers} {now : Option ℤ}

theorem ofInt_far {d : ℕ} (hlo : 2 ^ 63 ≤ d) (hhi : d < 2 ^ 64) :
    (ofInt d).isFinite ∧ (2 : ℚ) ^ (63 : ℤ) ≤ (ofInt d).value := by
  have habs : |((d : ℤ) : ℚ)| = d := by simp
  have hlo' : (2 : ℚ) ^ (63 : ℤ) ≤ |((d : ℤ) : ℚ)| := by
    exact_mod_cast hlo
  have hhi' : |((d : ℤ) : ℚ)| ≤ (2 : ℚ) ^ (1023 : ℤ) := by
    rw [habs]
    calc (d : ℚ) ≤ (2 : ℚ) ^ (64 : ℤ) := by exact_mod_cast hhi.le
      _ ≤ (2 : ℚ) ^ (1023 : ℤ) := zpow_le_zpow_right₀ one_le_two (by norm_num)
  refine ⟨isFinite_round ?_ hhi', two_zpow_le_value_round (by norm_num) (by norm_num) hlo'⟩
  exact (zpow_le_zpow_right₀ one_le_two (by norm_num)).trans hlo'

theorem readAlike_integer_iff {l : IntegerLiteral} {n : Number} (hread : l.read L = some n) :
    ReadAlike now (.number n) ↔ i64Min ≤ l.value ∧ l.value ≤ i64Max := by
  obtain ⟨negative, digits⟩ := l
  have hmin : i64Min = -9223372036854775808 := by decide
  have hmax : i64Max = 9223372036854775807 := by decide
  unfold IntegerLiteral.read at hread
  cases negative with
  | true =>
    simp only [if_true, IntegerLiteral.value] at hread ⊢
    split_ifs at hread with hzero hfits
    · cases hread
      simp only [hzero]
      exact ⟨fun _ => by decide, fun _ => readAlike_negZero⟩
    · cases hread
      exact ⟨fun _ => by omega, fun _ => readAlike_of_asI64 rfl⟩
    · obtain ⟨f, hf, rfl⟩ := map_eq_some_iff.mp hread
      have hfar := L.negative hf rfl (not_le.mp hfits)
      refine ⟨fun h => absurd h (not_readAlike_of_far rfl (L.finite hf) (.inr hfar)), ?_⟩
      omega
  | false =>
    simp only [Bool.false_eq_true, if_false, IntegerLiteral.value] at hread ⊢
    split_ifs at hread with hfits
    · cases hread
      by_cases hsigned : digits < 2 ^ 63
      · exact ⟨fun _ => by omega, fun _ => readAlike_of_asI64 (if_pos hsigned)⟩
      · obtain ⟨hfinite, hfar⟩ := ofInt_far (not_lt.mp hsigned) hfits
        refine ⟨fun h => absurd h (not_readAlike_of_far (if_neg hsigned) hfinite (.inl hfar)), ?_⟩
        omega
    · obtain ⟨f, hf, rfl⟩ := map_eq_some_iff.mp hread
      have hfar := L.positive hf rfl (not_lt.mp hfits)
      refine ⟨fun h => absurd h (not_readAlike_of_far rfl (L.finite hf) (.inl hfar)), ?_⟩
      omega

end Literals

/-- **A timestamp literal is read alike in a document and in a query exactly if it fits.**  The literal
is any text but `now`, or an integer of any size the JSON parser accepts. -/
theorem time_literal_read_alike (L : LongIntegers) (now : Option ℤ) {literal : TimeLiteral}
    {value : Value} (hread : literal.read L = some value) (hnow : literal ≠ .text "now") :
    ReadAlike now value ↔ literal.Fits := by
  cases literal with
  | integer l =>
    obtain ⟨n, hn, rfl⟩ := map_eq_some_iff.mp hread
    exact readAlike_integer_iff hn
  | text s =>
    cases hread
    have hother : s ≠ "now" := by
      rintro rfl
      exact hnow rfl
    rw [ReadAlike, parseTimeMillis, if_neg hother, parseTimestamp]
    constructor
    · rintro ⟨read, hparse, -⟩ hcuts
      rw [(Index.parseDateString_eq_error_iff (p := .notCharBoundary)).mpr hcuts] at hparse
      cases hparse
    · intro hfits
      cases hparse : parseDateString s.toList with
      | error p => exact absurd (Index.parseDateString_eq_error_iff.mp hparse) hfits
      | ok read =>
        refine ⟨read, rfl, rfl, ?_⟩
        rintro ms rfl
        exact millis_of_parseDateString hparse

/-- A parser that reads a literal too long for 64 bits as the nearest power of two that does not fit. -/
def nearestPower : LongIntegers where
  read l := some (F64.round l.negative (2 ^ (63 : ℤ)))
  finite h := by
    obtain rfl := Option.some.inj h
    have habs : |(2 : ℚ) ^ (63 : ℤ)| = 2 ^ (63 : ℤ) := abs_of_pos (by positivity)
    refine F64.isFinite_round ?_ ?_
    · exact zpow_le_zpow_right₀ one_le_two (by decide)
    · rw [habs]
      exact zpow_le_zpow_right₀ one_le_two (by decide)
  positive h hsign _ := by
    obtain rfl := Option.some.inj h
    rw [hsign]
    exact F64.two_zpow_le_value_round (by norm_num) (by norm_num) (le_abs_self _)
  negative h hsign _ := by
    obtain rfl := Option.some.inj h
    rw [hsign]
    exact F64.value_round_le_neg (by norm_num) (by norm_num) (le_abs_self _)

theorem time_literal_read_alike_second : TimeLiteral.read nearestPower (.integer ⟨false, 1500⟩) =
      some (.number (.posInt 1500)) ∧ ReadAlike none (.number (.posInt 1500)) :=
  ⟨rfl, (@time_literal_read_alike nearestPower none (.integer ⟨false, 1500⟩) _ rfl nofun).mpr
    ⟨by decide, by decide⟩⟩

/-- **A literal one past the largest 64-bit integer** is the end of the supported range in a document,
and a bound a million times as far in a query. -/
theorem time_literal_apart :
    TimeLiteral.read nearestPower (.integer ⟨false, 9223372036854775808⟩) =
        some (.number (.posInt 9223372036854775808)) ∧
      parseTimestamp (.number (.posInt 9223372036854775808)) = .ok (some 9223372036854) ∧
      parseTimeMillis none (.number (.posInt 9223372036854775808)) =
        .ok (some 9223372036854775807) := by
  refine ⟨rfl, ?_, ?_⟩
  · decide +kernel
  · decide +kernel

end RSearch.Search
