import RSearch.Index.Document

/-!
# The two readings of a query

A search reads its query twice.  First `scanTimeBounds` looks through the JSON for bounds on the
timestamp and narrows an interval by each it finds; splits outside it are not searched.  For the others
`translateQuery` turns the JSON into a query of the engine.
-/

namespace RSearch.Search

open Json Index

/-! ### Timestamps -/

def timestampAliases : List String := ["@timestamp", "timestamp", "_timestamp"]

/-- A timestamp literal in epoch milliseconds.  `now` is the clock's reading, and there is none before
the epoch.  A number that is not an integer is in seconds. -/
def parseTimeMillis (now : Option ℤ) : Value → Unwind (Option ℤ)
  | .string s => if s = "now" then .ok now else parseDateString s.toList
  | .number n =>
    match n.asI64 with
    | some i => .ok (some (epochToMillis i))
    | none =>
      .ok (if n.asF64.isFinite then some (n.asF64.mul (F64.ofInt 1000)).toInt64 else none)
  | _ => .ok none

/-- The engine's timestamp of a number of milliseconds, in nanoseconds.  The product wraps. -/
def fromTimestampMillis (ms : ℤ) : ℤ := (ms * 1000000).bmod (2 ^ 64)

/-! ### The scan -/

structure Interval where
  start : Option ℤ := none
  finish : Option ℤ := none
  deriving DecidableEq

def Interval.Contains (i : Interval) (t : ℤ) : Prop :=
  (∀ s ∈ i.start, s ≤ t) ∧ ∀ e ∈ i.finish, t ≤ e

instance (i : Interval) (t : ℤ) : Decidable (i.Contains t) :=
  inferInstanceAs (Decidable (_ ∧ _))

inductive Side where
  | lower
  | upper
  deriving DecidableEq

def opSide (op : String) : Option Side :=
  if op = "gte" ∨ op = "gt" then some .lower
  else if op = "lte" ∨ op = "lt" then some .upper
  else none

def Interval.narrow (i : Interval) : Option Side → Option ℤ → Interval
  | some .lower, some ms => { i with start := some (i.start.elim ms fun s => max s ms) }
  | some .upper, some ms => { i with finish := some (i.finish.elim ms fun e => min e ms) }
  | _, _ => i

/-- The loop over the operators of one field.  Every value is parsed, whatever its operator. -/
def scanOps (now : Option ℤ) : Members → Interval → Unwind Interval
  | [], i => .ok i
  | (op, value) :: ops, i => do
    let ms ← parseTimeMillis now value
    scanOps now ops (i.narrow (opSide op) ms)

def scanRange (now : Option ℤ) : Members → Interval → Unwind Interval
  | [], i => .ok i
  | (field, .object ops) :: fields, i =>
    if field ∈ timestampAliases then do
      let i ← scanOps now ops i
      scanRange now fields i
    else scanRange now fields i
  | _ :: fields, i => scanRange now fields i

def rangeFields (ms : Members) : Members := ((Members.get ms "range").bind Value.asObject).getD []

mutual

def scanTimeBounds (now : Option ℤ) : Value → Interval → Unwind Interval
  | .object ms, i => do
    let i ← scanRange now (rangeFields ms) i
    match scanBool now ms i with
    | some scanned => scanned
    | none => scanMembers now ms i
  | .array items, i => scanItems now items i
  | _, i => .ok i

/-- The scan of an object's `bool`, if it has one that is an object: its `must` and its `filter`. -/
def scanBool (now : Option ℤ) : Members → Interval → Option (Unwind Interval)
  | [], _ => none
  | (key, value) :: ms, i =>
    if key = "bool" then
      match value with
      | .object sections => some do
          let i ← scanSection now "must" sections i
          scanSection now "filter" sections i
      | _ => none
    else scanBool now ms i

def scanSection (now : Option ℤ) (name : String) : Members → Interval → Unwind Interval
  | [], i => .ok i
  | (key, value) :: ms, i =>
    if key = name then scanTimeBounds now value i else scanSection now name ms i

def scanMembers (now : Option ℤ) : Members → Interval → Unwind Interval
  | [], i => .ok i
  | (_, value) :: ms, i => do
    let i ← scanTimeBounds now value i
    scanMembers now ms i

def scanItems (now : Option ℤ) : List Value → Interval → Unwind Interval
  | [], i => .ok i
  | value :: items, i => do
    let i ← scanTimeBounds now value i
    scanItems now items i

end

/-- **The interval a query's splits are pruned by.** -/
def extractTimeBounds (now : Option ℤ) (query : Value) : Unwind Interval :=
  scanTimeBounds now query {}

/-! ### Documents and queries of the engine -/

/-- A document of a split: its timestamp in milliseconds, clamped when it was indexed, its `_seq` where
the split has that column, and its source. -/
structure Doc where
  millis : ℤ
  seq : Option ℕ
  source : Value
  safe : -maxSafeMillis ≤ millis ∧ millis ≤ maxSafeMillis
  fits : ∀ n ∈ seq, n < 2 ^ 63

inductive Bound where
  | unbounded
  | included (n : ℤ)
  | excluded (n : ℤ)
  deriving DecidableEq

def Bound.below (value : ℤ) : Bound → Bool
  | .unbounded => true
  | .included n => decide (n ≤ value)
  | .excluded n => decide (n < value)

def Bound.above (value : ℤ) : Bound → Bool
  | .unbounded => true
  | .included n => decide (value ≤ n)
  | .excluded n => decide (value < n)

/-- A query of the engine: a range of timestamps is in nanoseconds, a leaf is what the schema makes of
a query on other fields, and the clauses of a Boolean query are grouped by their occurrence. -/
inductive Query where
  | all
  | range (lower upper : Bound)
  | seqRange (lower upper : Bound)
  | leaf (kind : String) (body : Value)
  | bool (must should mustNot : List Query)

/-- What a split's schema and its index make of the leaf queries: whether their translators accept a
body, and which documents the result matches. -/
structure Schema where
  accepts : String → Value → Except String Unit
  holds : String → Value → Doc → Bool

mutual

/-- Whether the engine's query matches a document.  A Boolean query without a `must` needs one of its
`should` clauses. -/
def Query.matches (schema : Schema) (d : Doc) : Query → Bool
  | .all => true
  | .range lower upper =>
    lower.below (d.millis * 1000000) && upper.above (d.millis * 1000000)
  | .seqRange lower upper => d.seq.any fun n => lower.below n && upper.above n
  | .leaf kind body => schema.holds kind body d
  | .bool must should mustNot =>
    matchesAll schema d must && !matchesAny schema d mustNot &&
      (!must.isEmpty || matchesAny schema d should)

def matchesAll (schema : Schema) (d : Doc) : List Query → Bool
  | [] => true
  | q :: qs => q.matches schema d && matchesAll schema d qs

def matchesAny (schema : Schema) (d : Doc) : List Query → Bool
  | [] => false
  | q :: qs => q.matches schema d || matchesAny schema d qs

end

/-! ### The translator -/

inductive Refusal where
  | badRequest (reason : String)
  | panic (p : Panic)
  /-- The engine unwinds on a range that has no bound. -/
  | noRangeBound
  deriving DecidableEq

def timestampTerm (now : Option ℤ) (value : Value) : Except Refusal ℤ := do
  match ← (parseTimeMillis now value).mapError Refusal.panic with
  | some ms => return fromTimestampMillis ms
  | none => .error (.badRequest "invalid timestamp bound")

/-- The loop of `translate_range` over the operators, for the timestamp: each bound takes the place of
the one before it on its side. -/
def rangeBounds (now : Option ℤ) : Members → Bound → Bound → Except Refusal (Bound × Bound)
  | [], lower, upper => .ok (lower, upper)
  | (op, value) :: ops, lower, upper =>
    if op = "gte" then do
      let term ← timestampTerm now value
      rangeBounds now ops (.included term) upper
    else if op = "gt" then do
      let term ← timestampTerm now value
      rangeBounds now ops (.excluded term) upper
    else if op = "lte" then do
      let term ← timestampTerm now value
      rangeBounds now ops lower (.included term)
    else if op = "lt" then do
      let term ← timestampTerm now value
      rangeBounds now ops lower (.excluded term)
    else if op ∈ ["boost", "format", "time_zone"] then rangeBounds now ops lower upper
    else .error (.badRequest s!"unsupported range operator '{op}'")

def translateOther (schema : Schema) (kind : String) (body : Value) : Except Refusal Query :=
  ((schema.accepts kind body).mapError Refusal.badRequest).map fun _ => .leaf kind body

/-- The engine's query for a range of timestamps.  Without a bound it has no term to tell its field from, and
unwinds when the query is run; as every translated query is run, it unwinds here. -/
def timestampRange : Bound × Bound → Except Refusal Query
  | (.unbounded, .unbounded) => .error .noRangeBound
  | (lower, upper) => .ok (.range lower upper)

theorem timestampRange_eq_ok_iff {b : Bound × Bound} {q : Query} :
    timestampRange b = .ok q ↔ b ≠ (.unbounded, .unbounded) ∧ q = .range b.1 b.2 := by
  obtain ⟨lower, upper⟩ := b
  cases lower <;> cases upper <;> simp [timestampRange, eq_comm]

def translateRange (schema : Schema) (now : Option ℤ) : Value → Except Refusal Query
  | .object [] => .error (.badRequest "range query needs a field")
  | .object ((name, .object ops) :: fields) =>
    if name ∈ timestampAliases then
      (rangeBounds now ops .unbounded .unbounded).bind timestampRange
    else translateOther schema "range" (.object ((name, .object ops) :: fields))
  | .object (_ :: _) => .error (.badRequest "range bounds must be an object")
  | _ => .error (.badRequest "range body must be an object")

def leafKinds : List String :=
  ["term", "terms", "ids", "prefix", "wildcard", "exists", "match", "match_phrase", "query_string",
    "simple_query_string"]

def translateKind (schema : Schema) (now : Option ℤ) (kind : String) (body : Value) :
    Except Refusal Query :=
  if kind = "match_all" then .ok .all
  else if kind = "range" then translateRange schema now body
  else if kind ∈ leafKinds then translateOther schema kind body
  else .error (.badRequest (s!"unsupported query type '{kind}' (supported: match_all, bool, term, terms, " ++
    "ids, range, prefix, wildcard, exists, match, match_phrase, query_string, simple_query_string)"))

/-- The Boolean query of the clauses.  Without any it matches everything, and with nothing but
`must_not` it subtracts from everything. -/
def boolQuery (must should mustNot : List Query) : Query :=
  if must.isEmpty ∧ should.isEmpty ∧ mustNot.isEmpty then .all
  else if must.isEmpty ∧ should.isEmpty then .bool [.all] should mustNot
  else .bool must should mustNot

def severalKeys (n : ℕ) : Refusal :=
  .badRequest s!"query object must have exactly one key, found {n}"

mutual

def translateQuery (schema : Schema) (now : Option ℤ) : Value → Except Refusal Query
  | .object [] => .error (.badRequest "empty query object")
  | .object [(kind, body)] =>
    if kind = "bool" then
      match body with
      | .object sections => do
        let must ← translateSection schema now "must" sections
        let filter ← translateSection schema now "filter" sections
        let should ← translateSection schema now "should" sections
        let mustNot ← translateSection schema now "must_not" sections
        return boolQuery (must ++ filter) should mustNot
      | _ => .error (.badRequest "bool body must be an object")
    else translateKind schema now kind body
  | .object members => .error (severalKeys members.length)
  | _ => .error (.badRequest "query must be an object")

def translateSection (schema : Schema) (now : Option ℤ) (name : String) :
    Members → Except Refusal (List Query)
  | [] => .ok []
  | (key, .array items) :: ms =>
    if key = name then translateItems schema now items else translateSection schema now name ms
  | (key, query) :: ms =>
    if key = name then (translateQuery schema now query).map fun q => [q]
    else translateSection schema now name ms

def translateItems (schema : Schema) (now : Option ℤ) : List Value → Except Refusal (List Query)
  | [] => .ok []
  | item :: items => do
    let q ← translateQuery schema now item
    let qs ← translateItems schema now items
    return q :: qs

end

end RSearch.Search
