import RSearch.Search.Page
import RSearch.Search.TimeLiteral

/-!
# LogQL selectors and the query they become

The API answers a LogQL selector with a search of the engine.  The selector's label matchers become the
clauses of one `bool` query (`term` for equality, `terms` for the values a regular expression matched; the
negated ones under `must_not`), beside a `range` on the timestamp.  Its line filters are not in the query.

The two numbers of the `range` are read twice: once by the scan that narrows the splits to search
(`extractTimeBounds_selectorJson`), once by the translation into the engine's query
(`matches_selectorJson`).  Both put them through `epochToMillis`, so both come to the interval `applied`.
-/

namespace RSearch.Loki

open Json (Value Members Number)
open Index (epochToMillis i64Max)
open Search Except

/-! ### The query -/

/-- A label matcher as a clause of the query. -/
inductive Clause where
  | term (label value : String)
  | terms (label : String) (values : List String)
  deriving DecidableEq

open Clause

def Clause.kind : Clause → String
  | .term _ _ => "term"
  | .terms _ _ => "terms"

def Clause.body : Clause → Value
  | .term label value => .object [(label, .string value)]
  | .terms label values => .object [(label, .array (values.map .string))]

def Clause.toJson (c : Clause) : Value := .object [(c.kind, c.body)]

def rangeJson (start stop : ℤ) : Value :=
  .object [("range", .object [("@timestamp",
    .object [("gte", intNumber start), ("lte", intNumber stop)])])]

/-- **The query of a selector.** -/
def selectorJson (start stop : ℤ) (filter mustNot : List Clause) : Value :=
  .object [("bool", .object [
    ("filter", .array (rangeJson start stop :: filter.map Clause.toJson)),
    ("must_not", .array (mustNot.map Clause.toJson))])]

/-- The interval the search layer makes of the two numbers of the `range`. -/
def applied (start stop : ℤ) : Interval := ⟨some (epochToMillis start), some (epochToMillis stop)⟩

section Scan

variable {now : Option ℤ} {start stop : ℤ} {filter mustNot : List Clause}

theorem parseTimeMillis_intNumber {n : ℤ} (hn : n ≤ i64Max) :
    parseTimeMillis now (intNumber n) = .ok (some (epochToMillis n)) := by
  have hmax : i64Max = 9223372036854775807 := by decide
  unfold intNumber
  split_ifs with hpos
  · have hlt : n.toNat < 2 ^ 63 := by omega
    simp only [parseTimeMillis, Number.asI64, if_pos hlt, Int.toNat_of_nonneg hpos]
  · rfl

theorem scanItems_strings (values : List String) (i : Interval) :
    scanItems now (values.map .string) i = .ok i := by
  induction values with
  | nil => rfl
  | cons value values ih => exact ih

variable {key : String} {value : Value}

theorem scanTimeBounds_single {i j : Interval} (hrange : rangeFields [(key, value)] = [])
    (hbool : scanBool now [(key, value)] i = none) (hscan : scanTimeBounds now value i = .ok j) :
    scanTimeBounds now (.object [(key, value)]) i = .ok j := by
  rw [scanTimeBounds, hrange, scanRange, ok_bind, hbool]
  simp only [scanMembers, hscan, ok_bind]

theorem scanTimeBounds_member {i : Interval} (hvalue : value.asObject = none)
    (hscan : scanTimeBounds now value i = .ok i) :
    scanTimeBounds now (.object [(key, value)]) i = .ok i := by
  refine scanTimeBounds_single ?_ ?_ hscan
  · rw [rangeFields, Members.get_cons]
    split_ifs
    · rw [Option.bind_some, hvalue]
      rfl
    · rfl
  · cases value with
    | object => cases hvalue
    | null | bool | number | string | array =>
      grind [scanBool]

theorem scanTimeBounds_clause (c : Clause) (i : Interval) : scanTimeBounds now c.toJson i = .ok i := by
  cases c with
  | term label value =>
    exact scanTimeBounds_single rfl rfl (scanTimeBounds_member rfl rfl)
  | terms label values =>
    exact scanTimeBounds_single rfl rfl (scanTimeBounds_member rfl (scanItems_strings values i))

theorem scanItems_clauses (clauses : List Clause) (i : Interval) :
    scanItems now (clauses.map toJson) i = .ok i := by
  induction clauses with
  | nil => rfl
  | cons c clauses ih => rw [List.map_cons, scanItems, scanTimeBounds_clause, ok_bind, ih]

theorem scanTimeBounds_rangeJson (hstart : start ≤ i64Max) (hstop : stop ≤ i64Max) :
    scanTimeBounds now (rangeJson start stop) {} = .ok (applied start stop) := by
  have hops : scanOps now [("gte", intNumber start), ("lte", intNumber stop)] {}
      = .ok (applied start stop) := by
    simp only [scanOps, parseTimeMillis_intNumber hstart, parseTimeMillis_intNumber hstop, ok_bind]
    rfl
  -- inside the `range` there is nothing more to find
  have hinside : scanTimeBounds now (.object [("@timestamp",
      .object [("gte", intNumber start), ("lte", intNumber stop)])]) (applied start stop)
        = .ok (applied start stop) := by
    rfl
  have hrange : scanRange now (rangeFields [("range", .object [("@timestamp",
      .object [("gte", intNumber start), ("lte", intNumber stop)])])]) {} = .ok (applied start stop) :=
    bind_eq_ok_iff.mpr ⟨_, hops, rfl⟩
  exact bind_eq_ok_iff.mpr ⟨_, hrange, bind_eq_ok_iff.mpr ⟨_, hinside, rfl⟩⟩

theorem extractTimeBounds_selectorJson (hstart : start ≤ i64Max) (hstop : stop ≤ i64Max) :
    extractTimeBounds now (selectorJson start stop filter mustNot) = .ok (applied start stop) := by
  have hitems : scanItems now (rangeJson start stop :: filter.map toJson) {}
      = .ok (applied start stop) := by
    rw [scanItems, scanTimeBounds_rangeJson hstart hstop, ok_bind, scanItems_clauses]
  exact hitems

end Scan

section Translate

variable {schema : Schema} {now : Option ℤ} {start stop : ℤ} {filter mustNot : List Clause} {d : Doc}

def Clause.holds (schema : Schema) (d : Doc) (c : Clause) : Bool := schema.holds c.kind c.body d

theorem translateQuery_clause (c : Clause) :
    translateQuery schema now c.toJson = translateOther schema c.kind c.body := by
  cases c <;> rfl

theorem translateItems_clauses {clauses : List Clause} {qs : List Query}
    (h : translateItems schema now (clauses.map toJson) = .ok qs) :
    qs = clauses.map fun c => .leaf c.kind c.body := by
  induction clauses generalizing qs with
  | nil =>
    cases h
    rfl
  | cons c clauses ih =>
    rw [List.map_cons, translateItems, translateQuery_clause] at h
    obtain ⟨q, hq, h⟩ := of_bind h
    obtain ⟨rest, hrest, h⟩ := of_bind h
    cases h
    obtain ⟨_, -, rfl⟩ := map_eq_ok_iff.mp hq
    rw [ih hrest, List.map_cons]

theorem matchesAll_clauses (clauses : List Clause) :
    matchesAll schema d (clauses.map fun c => .leaf c.kind c.body) = clauses.all (·.holds schema d) := by
  induction clauses with
  | nil => rfl
  | cons c clauses ih => grind [holds, matchesAll, Query.matches]

theorem matchesAny_clauses (clauses : List Clause) :
    matchesAny schema d (clauses.map fun c => .leaf c.kind c.body) = clauses.any (·.holds schema d) := by
  induction clauses with
  | nil => rfl
  | cons c clauses ih => grind [holds, matchesAny, Query.matches]

theorem timestampTerm_intNumber {n : ℤ} (hn : n ≤ i64Max) :
    timestampTerm now (intNumber n) = .ok (epochToMillis n * 1000000) := by
  have hsafe := epochToMillis_safe n
  rw [timestampTerm, parseTimeMillis_intNumber hn, ← fromTimestampMillis_of_safe hsafe.1 hsafe.2]
  rfl

theorem translateQuery_rangeJson (hstart : start ≤ i64Max) (hstop : stop ≤ i64Max) :
    translateQuery schema now (rangeJson start stop) = .ok (.range
      (.included (epochToMillis start * 1000000)) (.included (epochToMillis stop * 1000000))) := by
  have hbounds : rangeBounds now [("gte", intNumber start), ("lte", intNumber stop)] .unbounded
      .unbounded = .ok (.included (epochToMillis start * 1000000),
        .included (epochToMillis stop * 1000000)) := by
    simp [rangeBounds, timestampTerm_intNumber hstart, timestampTerm_intNumber hstop, ok_bind]
  exact (congrArg (Except.bind · timestampRange) hbounds).trans rfl

theorem translateQuery_selectorJson {q : Query} (hstart : start ≤ i64Max) (hstop : stop ≤ i64Max)
    (h : translateQuery schema now (selectorJson start stop filter mustNot) = .ok q) :
    q = .bool (.range (.included (epochToMillis start * 1000000))
        (.included (epochToMillis stop * 1000000)) :: filter.map fun c => .leaf c.kind c.body) []
      (mustNot.map fun c => .leaf c.kind c.body) := by
  obtain ⟨must, hmust, h⟩ := of_bind h
  obtain ⟨filters, hfilters, h⟩ := of_bind h
  obtain ⟨should, hshould, h⟩ := of_bind h
  obtain ⟨nots, hnots, h⟩ := of_bind h
  cases h
  cases hmust
  cases hshould
  have hnots' : translateItems schema now (mustNot.map toJson) = .ok nots := hnots
  have hfilters' : translateItems schema now (rangeJson start stop :: filter.map toJson)
      = .ok filters := hfilters
  rw [translateItems, translateQuery_rangeJson hstart hstop, ok_bind] at hfilters'
  obtain ⟨clauses, hclauses, h⟩ := of_bind hfilters'
  cases h
  rw [translateItems_clauses hclauses, translateItems_clauses hnots']
  rfl

theorem matches_selectorJson {q : Query} (hstart : start ≤ i64Max) (hstop : stop ≤ i64Max)
    (h : translateQuery schema now (selectorJson start stop filter mustNot) = .ok q) :
    q.matches schema d = true ↔ (applied start stop).Contains d.millis ∧
      (∀ c ∈ filter, c.holds schema d = true) ∧ ∀ c ∈ mustNot, c.holds schema d = false := by
  rw [translateQuery_selectorJson hstart hstop h, Query.matches, matchesAll, matchesAll_clauses,
    matchesAny_clauses, Query.matches]
  grind [Bound.below, applied, Interval.Contains, Bound.above]

end Translate

end RSearch.Loki
