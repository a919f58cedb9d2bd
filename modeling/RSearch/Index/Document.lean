import RSearch.Index.Date

/-!
# Documents and their mapping

A mapped field indexes its value into its own column and into every multi-field declared beneath it; a
value it cannot parse is left out and counted.  Everything unmapped goes into the dynamic object, and
the source is stored as it came.
-/

namespace RSearch.Index

open List

open Json (Value Members Number)

/-! ### Mappings -/

inductive FieldType where
  | keyword
  | text
  | long
  | double
  | boolean
  | date
  | ip
  deriving DecidableEq

def FieldType.asStr : FieldType → String
  | .keyword => "keyword"
  | .text => "text"
  | .long => "long"
  | .double => "double"
  | .boolean => "boolean"
  | .date => "date"
  | .ip => "ip"

inductive NormalizerFilter where
  | lowercase
  | uppercase
  | asciiFolding
  | trim
  deriving DecidableEq

/-- A declared field: its type, the parameters that apply to it, and its multi-fields. -/
structure FieldDef where
  ty : FieldType
  normalizer : Option String := none
  ignoreAbove : Option Nat := none
  ignoreMalformed : Bool := false
  fields : List (String × FieldDef) := []

structure IndexMapping where
  properties : List (String × FieldDef)
  normalizers : List (String × List NormalizerFilter) := []

structure MappedField where
  field : Nat
  ty : FieldType
  normalizer : Option (List NormalizerFilter) := none
  ignoreAbove : Option Nat := none
  ignoreMalformed : Bool := false

/-- A schema: the reserved columns, a column for each declared path, and the mapping it came
from. -/
structure MappedSchema where
  source : Nat
  timestamp : Nat
  dynamic : Nat
  fields : List (String × MappedField)
  mapping : IndexMapping
  id : Option Nat
  seq : Option Nat
  dynamicRaw : Option Nat

def MappedSchema.field (schema : MappedSchema) (path : String) : Option MappedField :=
  schema.fields.lookup path

def MappedSchema.property (schema : MappedSchema) (key : String) : Option FieldDef :=
  schema.mapping.properties.lookup key

mutual

/-- The paths a definition declares: its own and those of its multi-fields, in order. -/
def walk (path : String) : FieldDef → List String
  | ⟨_, _, _, _, fields⟩ => path :: walkFields path fields

def walkFields (path : String) : List (String × FieldDef) → List String
  | [] => []
  | (name, sub) :: subs => walk (path ++ "." ++ name) sub ++ walkFields path subs

end

/-! ### The platform -/

inductive IpAddr where
  | v4 (bits : BitVec 32)
  | v6 (bits : BitVec 128)
  deriving DecidableEq

def IpAddr.toIpv6 : IpAddr → BitVec 128
  | .v4 bits => 0xffff00000000#128 ||| bits.setWidth 128
  | .v6 bits => bits

structure Platform where
  /-- The serializer's text of a value. -/
  toString : Value → String
  /-- The decimal rendering of a double. -/
  display : F64 → String
  normalize : NormalizerFilter → String → String
  parseIp : String → Option IpAddr

/-! ### Reading one value -/

def preview (P : Platform) (value : Value) : String := value.asStr.getD (P.toString value)

def tokenName : Value → String
  | .null => "VALUE_NULL"
  | .bool true => "VALUE_TRUE"
  | .bool false => "VALUE_FALSE"
  | .number n => if n.isF64 then "VALUE_NUMBER_FLOAT" else "VALUE_NUMBER_INT"
  | .string _ => "VALUE_STRING"
  | .array _ => "START_ARRAY"
  | .object _ => "START_OBJECT"

def numberMillis (n : Number) : Option ℤ :=
  match n.asI64 with
  | some i => some (epochToMillis i)
  | none =>
    if ¬n.asF64.isFinite then none
    else if |n.asF64.value| < 100000000000 then
      some (clampMillis (n.asF64.mul (F64.ofInt 1000)).toInt64)
    else some (epochToMillis n.asF64.toInt64)

def parseTimestamp : Value → Unwind (Option ℤ)
  | .string s => parseDateString s.toList
  | .number n => .ok (numberMillis n)
  | _ => .ok none

def timestampValue (doc : Value) : Option Value :=
  (doc.get "@timestamp").or (doc.get "timestamp")

def extractTimestamp (doc : Value) : Unwind (Option ℤ) :=
  match timestampValue doc with
  | some value => parseTimestamp value
  | none => .ok none

inductive Indexed where
  | str (s : String)
  | i64 (n : ℤ)
  | f64 (f : F64)
  | bool (b : Bool)
  | date (millis : ℤ)
  | ip (bits : BitVec 128)

/-- A numeric field's view of a value: numbers and numeric texts; the empty text reads as null. -/
def parseNumber (P : Platform) : Value → Except String (Option F64)
  | .number n =>
    if n.asF64.isFinite then .ok (some n.asF64)
    else .error ("Numeric value (" ++ P.toString (.number n) ++ ") out of range")
  | .string s =>
    if s = "" then .ok none
    else
      match F64.ofChars s.toList with
      | some f =>
        if f.isFinite then .ok (some f) else .error ("For input string: \"" ++ s ++ "\"")
      | none => .error ("For input string: \"" ++ s ++ "\"")
  | other =>
    .error ("Current token (" ++ tokenName other ++
      ") not numeric, cannot use numeric value accessors")

def parseText (P : Platform) : Value → Except String (Option Indexed)
  | .string s => .ok (some (.str s))
  | .number n => .ok (some (.str (P.toString (.number n))))
  | .bool b => .ok (some (.str (P.toString (.bool b))))
  | _ => .error "Can't get text on a START_OBJECT"

def parseLong (P : Platform) (value : Value) : Except String (Option Indexed) :=
  match parseNumber P value with
  | .error e => .error e
  | .ok none => .ok none
  | .ok (some n) =>
    if n.hasFraction ∨ |n.value| < 2 ^ 63 then .ok (some (.i64 n.toInt64))
    else .error ("Numeric value (" ++ P.display n ++ ") out of range of long")

def parseBoolean : Value → Except String (Option Indexed)
  | .bool b => .ok (some (.bool b))
  | .string s =>
    if s = "" then .ok none
    else if s = "true" ∨ s = "false" then .ok (some (.bool (s == "true")))
    else .error ("Failed to parse value [" ++ s ++ "] as only [true] or [false] are allowed.")
  | value => .error ("Current token (" ++ tokenName value ++ ") not of boolean type")

def defaultDateFormat : String := "strict_date_optional_time||epoch_millis"

def parseDateField (P : Platform) (value : Value) : Unwind (Except String (Option Indexed)) :=
  (parseTimestamp value).map fun
    | some date => .ok (some (.date date))
    | none =>
      if value.asStr = some "" then .error "cannot parse empty date"
      else .error ("failed to parse date field [" ++ preview P value ++ "] with format [" ++
        defaultDateFormat ++ "]")

def parseIpField (P : Platform) (value : Value) : Except String (Option Indexed) :=
  match value.asStr with
  | some s =>
    match P.parseIp s with
    | some ip => .ok (some (.ip ip.toIpv6))
    | none => .error ("'" ++ s ++ "' is not an IP string literal.")
  | none => .error ("'" ++ preview P value ++ "' is not an IP string literal.")

/-- A value as a mapped field reads it: nothing to index, something, or the reason it cannot. -/
def parseFor (P : Platform) (mapped : MappedField) (value : Value) :
    Unwind (Except String (Option Indexed)) :=
  if value.isNull then .ok (.ok none)
  else
    match mapped.ty with
    | .keyword | .text => .ok (parseText P value)
    | .long => .ok (parseLong P value)
    | .double => .ok ((parseNumber P value).map (Option.map .f64))
    | .boolean => .ok (parseBoolean value)
    | .date => parseDateField P value
    | .ip => .ok (parseIpField P value)

/-! ### Building the document -/

inductive Leaf where
  | text (s : String)
  | i64 (n : ℤ)
  | f64 (f : F64)
  | bool (b : Bool)
  | date (millis : ℤ)
  | ip (bits : BitVec 128)
  | object (members : Members)

abbrev TantivyDocument := List (Nat × Leaf)

structure Added where
  leaves : TantivyDocument
  dropped : Nat

def Added.empty : Added := ⟨[], 0⟩

def Added.append (a b : Added) : Added := ⟨a.leaves ++ b.leaves, a.dropped + b.dropped⟩

def Added.all : List (Unwind Added) → Unwind Added
  | [] => .ok .empty
  | x :: xs => do
    let a ← x
    let b ← Added.all xs
    return a.append b

def MappedField.normalizeText (P : Platform) (mapped : MappedField) (s : String) : String :=
  (mapped.normalizer.getD []).foldl (fun s filter => P.normalize filter s) s

def MappedField.tooLong (mapped : MappedField) (s : String) : Bool :=
  mapped.ignoreAbove.any fun limit => decide (limit < s.length)

def addParsed (P : Platform) (mapped : MappedField) : Indexed → TantivyDocument
  | .str s =>
    if mapped.tooLong s then [] else [(mapped.field, .text (mapped.normalizeText P s))]
  | .i64 n => [(mapped.field, .i64 n)]
  | .f64 f => [(mapped.field, .f64 f)]
  | .bool b => [(mapped.field, .bool b)]
  | .date millis => [(mapped.field, .date millis)]
  | .ip bits => [(mapped.field, .ip bits)]

def flatten : Value → List Value
  | .array items => items
  | other => [other]

def indexItem (P : Platform) (mapped : MappedField) (item : Value) : Unwind Added :=
  (parseFor P mapped item).map fun
    | .ok (some parsed) => ⟨addParsed P mapped parsed, 0⟩
    | .ok none => .empty
    | .error _ => ⟨[], if mapped.ignoreMalformed then 0 else 1⟩

def indexPath (P : Platform) (schema : MappedSchema) (value : Value) (path : String) :
    Unwind Added :=
  match schema.field path with
  | some mapped => Added.all ((flatten value).map (indexItem P mapped))
  | none => .ok .empty

mutual

/-- A mapped value into its path's column and, recursively, into every multi-field beneath it. -/
def indexMapped (P : Platform) (schema : MappedSchema) (path : String) (value : Value) :
    FieldDef → Unwind Added
  | ⟨_, _, _, _, fields⟩ => do
    let own ← indexPath P schema value path
    let subs ← indexFields P schema path value fields
    return own.append subs

def indexFields (P : Platform) (schema : MappedSchema) (path : String) (value : Value) :
    List (String × FieldDef) → Unwind Added
  | [] => .ok .empty
  | (name, sub) :: subs => do
    let a ← indexMapped P schema (path ++ "." ++ name) value sub
    let b ← indexFields P schema path value subs
    return a.append b

end

def keywordIgnoreAbove : Nat := 256

mutual

/-- The part of a value that has a keyword view: its short texts, with their nesting. -/
def keywordValue : Value → Option Value
  | .string s => if s.length ≤ keywordIgnoreAbove then some (.string s) else none
  | .object ms =>
    match keywordMembers ms with
    | [] => none
    | kept => some (.object kept)
  | .array items =>
    match keywordItems items with
    | [] => none
    | kept => some (.array kept)
  | _ => none

def keywordItems : List Value → List Value
  | [] => []
  | v :: vs =>
    match keywordValue v with
    | some kept => kept :: keywordItems vs
    | none => keywordItems vs

def keywordMembers : List (String × Value) → List (String × Value)
  | [] => []
  | (k, v) :: ms =>
    match keywordValue v with
    | some kept => (k, kept) :: keywordMembers ms
    | none => keywordMembers ms

end

inductive IndexError where
  | invalidDocument (reason : String)
  | malformedField (field : String) (ty : FieldType) (reason : String) (preview : String)
  deriving DecidableEq

structure DocIdentity where
  id : String
  seq : ℤ
  deriving DecidableEq

/-- A converted document, its effective timestamp, and the values dropped as malformed. -/
structure Converted where
  doc : TantivyDocument
  timestamp : ℤ
  dropped : Nat

def unmapped (schema : MappedSchema) (members : Members) : Members :=
  members.filter fun m => (schema.property m.1).isNone

def indexMembers (P : Platform) (schema : MappedSchema) (members : Members) : Unwind Added :=
  Added.all (members.filterMap fun m =>
    (schema.property m.1).map (indexMapped P schema m.1 m.2))

def dynamicLeaves (schema : MappedSchema) (dynamic : Members) : TantivyDocument :=
  if dynamic = [] then []
  else
    (match schema.dynamicRaw, keywordMembers dynamic with
      | some _, [] => []
      | some raw, kept => [(raw, .object kept)]
      | none, _ => []) ++ [(schema.dynamic, .object dynamic)]

def identityLeaves (schema : MappedSchema) (identity : DocIdentity) : TantivyDocument :=
  match schema.id, schema.seq with
  | some id, some seq => [(id, .text identity.id), (seq, .i64 identity.seq)]
  | _, _ => []

def convertWithSource (P : Platform) (schema : MappedSchema) (doc : Value) (source : Option String)
    (identity : DocIdentity) (fallback : ℤ) : Unwind (Except IndexError Converted) := do
  let timestamp := (← extractTimestamp doc).getD fallback
  match doc with
  | .object members => do
    let added ← indexMembers P schema members
    let leaves := (schema.timestamp, .date timestamp) :: identityLeaves schema identity ++
      [(schema.source, .text (source.getD (P.toString doc)))] ++ added.leaves ++
      dynamicLeaves schema (unmapped schema members)
    return .ok ⟨leaves, timestamp, added.dropped⟩
  | _ => return .error (.invalidDocument "document must be an object")

/-! ### Checking a document before it is written -/

def firstError : List (Unwind (Except IndexError Unit)) → Unwind (Except IndexError Unit)
  | [] => .ok (.ok ())
  | x :: xs => do
    match ← x with
    | .error e => return .error e
    | .ok () => firstError xs

def validateItem (P : Platform) (path : String) (mapped : MappedField) (item : Value) :
    Unwind (Except IndexError Unit) :=
  (parseFor P mapped item).map fun
    | .ok _ => .ok ()
    | .error reason => .error (.malformedField path mapped.ty reason (preview P item))

def validatePath (P : Platform) (schema : MappedSchema) (value : Value) (path : String) :
    Unwind (Except IndexError Unit) :=
  match schema.field path with
  | some mapped =>
    if mapped.ignoreMalformed then .ok (.ok ())
    else firstError ((flatten value).map (validateItem P path mapped))
  | none => .ok (.ok ())

mutual

def validateMapped (P : Platform) (schema : MappedSchema) (path : String) (value : Value) :
    FieldDef → Unwind (Except IndexError Unit)
  | ⟨_, _, _, _, fields⟩ => do
    match ← validatePath P schema value path with
    | .error e => return .error e
    | .ok () => validateFields P schema path value fields

def validateFields (P : Platform) (schema : MappedSchema) (path : String) (value : Value) :
    List (String × FieldDef) → Unwind (Except IndexError Unit)
  | [] => .ok (.ok ())
  | (name, sub) :: subs => do
    match ← validateMapped P schema (path ++ "." ++ name) value sub with
    | .error e => return .error e
    | .ok () => validateFields P schema path value subs

end

def validateDocument (P : Platform) (schema : MappedSchema) (doc : Value) :
    Unwind (Except IndexError Unit) :=
  if schema.mapping.properties.isEmpty then .ok (.ok ())
  else
    match doc with
    | .object members =>
      firstError (members.filterMap fun m =>
        (schema.property m.1).map (validateMapped P schema m.1 m.2))
    | _ => .ok (.error (.invalidDocument "document must be an object"))

/-! ### What unwinds a conversion -/

def CutsText (value : Value) : Prop := ∃ s, value = .string s ∧ CutsChar s.toList

variable {value : Value} {p : Panic} {P : Platform} {mapped : MappedField} {schema : MappedSchema}
  {members : Members} {identity : DocIdentity} {fallback : ℤ}

theorem parseTimestamp_eq_error_iff : parseTimestamp value = .error p ↔ CutsText value := by
  cases value with
  | string s =>
    rw [parseTimestamp, parseDateString_eq_error_iff]
    constructor
    · intro h
      exact ⟨s, rfl, h⟩
    · rintro ⟨_, he, h⟩
      exact Value.string.inj he ▸ h
  | _ => exact iff_of_false (by simp [parseTimestamp]) (by rintro ⟨s, h, -⟩; cases h)

theorem extractTimestamp_eq_error_iff {doc : Value} :
    extractTimestamp doc = .error p ↔ ∃ value, timestampValue doc = some value ∧ CutsText value := by
  grind [parseTimestamp_eq_error_iff, extractTimestamp]

theorem parseFor_eq_error_iff :
    parseFor P mapped value = .error p ↔ mapped.ty = .date ∧ CutsText value := by
  unfold parseFor
  split
  case isTrue hnull =>
    refine iff_of_false (by simp) ?_
    rintro ⟨-, s, rfl, -⟩
    cases hnull
  case isFalse =>
    cases mapped.ty with
    | date => simp [parseDateField, Except.map_eq_error_iff, parseTimestamp_eq_error_iff]
    | _ => simp

namespace Added

variable {xs : List (Unwind Added)}

theorem all_eq_error_iff {p : Panic} : all xs = .error p ↔ ∃ x ∈ xs, x = .error p := by
  induction xs with
  | nil => simp [all]
  | cons x xs ih =>
    cases x with
    | error q =>
      cases p
      cases q
      exact iff_of_true rfl ⟨_, mem_cons_self, rfl⟩
    | ok a =>
      simp only [mem_cons, exists_eq_or_imp, reduceCtorEq, false_or, ← ih]
      cases hall : all xs <;> simp [all, hall, bind, Except.bind, pure, Except.pure]

theorem all_append (xs ys : List (Unwind Added)) :
    all (xs ++ ys) = do
      let a ← all xs
      let b ← all ys
      return a.append b := by
  induction xs with
  | nil =>
    show all ys = (all ys).bind fun b => .ok (empty.append b)
    cases all ys with
    | error p => rfl
    | ok b => simp [Except.bind, empty, append]
  | cons x xs ih =>
    rw [cons_append, all, all, ih]
    cases x with
    | error p => rfl
    | ok a =>
      cases all xs with
      | error p => rfl
      | ok b =>
        cases all ys with
        | error p => rfl
        | ok c => simp [bind, Except.bind, pure, Except.pure, append, Nat.add_assoc]

theorem leaves_subset_of_mem {a r : Added} (h : all xs = .ok r) (ha : .ok a ∈ xs) :
    a.leaves ⊆ r.leaves := by
  induction xs generalizing r with
  | nil => cases ha
  | cons x xs ih =>
    cases x with
    | error p => cases h
    | ok b =>
      cases hall : all xs with
      | error p => simp [all, hall, bind, Except.bind] at h
      | ok c =>
        have hr : r = b.append c := by
          simpa [all, hall, bind, Except.bind, pure, Except.pure] using h.symm
        subst hr
        rcases mem_cons.mp ha with heq | hmem
        · cases heq
          exact subset_append_left _ _
        · exact subset_append_of_subset_right _ (ih hall hmem)

end Added

mutual

theorem indexMapped_eq (P : Platform) (schema : MappedSchema) (path : String) (value : Value) :
    ∀ d : FieldDef, indexMapped P schema path value d
      = Added.all ((walk path d).map (indexPath P schema value))
  | ⟨_, _, _, _, fields⟩ => by
    rw [indexMapped, walk, map_cons, Added.all, indexFields_eq P schema path value fields]

theorem indexFields_eq (P : Platform) (schema : MappedSchema) (path : String) (value : Value) :
    ∀ fields : List (String × FieldDef), indexFields P schema path value fields
      = Added.all ((walkFields path fields).map (indexPath P schema value))
  | [] => rfl
  | (name, sub) :: subs => by
    rw [indexFields, walkFields, map_append, Added.all_append,
      indexMapped_eq P schema (path ++ "." ++ name) value sub,
      indexFields_eq P schema path value subs]

end

/-- Reading a value into a column: the path is declared under a key of the document, and the column
reads each element of the key's value. -/
structure Reads (schema : MappedSchema) (members : Members) (mapped : MappedField)
    (item : Value) : Prop where
  exists_path : ∃ m ∈ members, ∃ d, schema.property m.1 = some d ∧ item ∈ flatten m.2 ∧
    ∃ path ∈ walk m.1 d, schema.field path = some mapped

theorem indexPath_eq_error_iff {path : String} :
    indexPath P schema value path = .error p ↔ ∃ mapped, schema.field path = some mapped ∧
      ∃ item ∈ flatten value, mapped.ty = .date ∧ CutsText item := by
  unfold indexPath
  cases schema.field path with
  | none => simp
  | some mapped =>
    simp [Added.all_eq_error_iff, indexItem, Except.map_eq_error_iff, parseFor_eq_error_iff]

theorem indexMembers_eq_error_iff :
    indexMembers P schema members = .error p ↔
      ∃ mapped item, Reads schema members mapped item ∧ mapped.ty = .date ∧ CutsText item := by
  rw [indexMembers, Added.all_eq_error_iff]
  constructor
  · rintro ⟨x, hx, rfl⟩
    obtain ⟨m, hm, hmap⟩ := mem_filterMap.mp hx
    obtain ⟨d, hd, herr⟩ := Option.map_eq_some_iff.mp hmap
    rw [indexMapped_eq, Added.all_eq_error_iff] at herr
    obtain ⟨y, hy, rfl⟩ := herr
    obtain ⟨path, hpath, herr⟩ := mem_map.mp hy
    obtain ⟨mapped, hfield, item, hitem, hdate, hcut⟩ := indexPath_eq_error_iff.mp herr
    exact ⟨mapped, item, ⟨m, hm, d, hd, hitem, path, hpath, hfield⟩, hdate, hcut⟩
  · rintro ⟨mapped, item, ⟨m, hm, d, hd, hitem, path, hpath, hfield⟩, hdate, hcut⟩
    refine ⟨.error p, mem_filterMap.mpr ⟨m, hm, ?_⟩, rfl⟩
    rw [hd, Option.map_some, Option.some.injEq, indexMapped_eq, Added.all_eq_error_iff]
    exact ⟨.error p, mem_map.mpr ⟨path, hpath,
      indexPath_eq_error_iff.mpr ⟨mapped, hfield, item, hitem, hdate, hcut⟩⟩, rfl⟩

/-- **A document with a date that cuts a character**: its timestamp, or a value read by a date
column. -/
def CutsDate (schema : MappedSchema) (members : Members) : Prop :=
  (∃ value, timestampValue (.object members) = some value ∧ CutsText value) ∨
    ∃ mapped item, Reads schema members mapped item ∧ mapped.ty = .date ∧ CutsText item

theorem convertWithSource_object (P : Platform) (schema : MappedSchema) (members : Members)
    (source : Option String) (identity : DocIdentity) (fallback : ℤ) :
    convertWithSource P schema (.object members) source identity fallback = do
      let timestamp ← extractTimestamp (.object members)
      let added ← indexMembers P schema members
      return .ok ⟨(schema.timestamp, .date (timestamp.getD fallback)) ::
        identityLeaves schema identity ++
        [(schema.source, .text (source.getD (P.toString (.object members))))] ++ added.leaves ++
        dynamicLeaves schema (unmapped schema members), timestamp.getD fallback, added.dropped⟩ :=
  rfl

theorem convertWithSource_eq_error_iff {source : Option String} :
    convertWithSource P schema (.object members) source identity fallback = .error p ↔
      CutsDate schema members := by
  rw [convertWithSource_object, CutsDate, ← extractTimestamp_eq_error_iff (p := p),
    ← indexMembers_eq_error_iff (P := P) (p := p)]
  cases extractTimestamp (.object members) with
  | error q =>
    cases p
    cases q
    exact iff_of_true rfl (.inl rfl)
  | ok timestamp =>
    cases indexMembers P schema members <;>
      simp [bind, Except.bind, pure, Except.pure]

/-- **What a converted document has to keep of its original**: the source as it came, the identity,
every value one of its columns can read, and everything unmapped.  A value a column cannot read is
missing from that column and from nothing else. -/
structure Holds (P : Platform) (schema : MappedSchema) (members : Members) (source : String)
    (identity : DocIdentity) (doc : TantivyDocument) : Prop where
  source_mem : (schema.source, .text source) ∈ doc
  identity_subset : identityLeaves schema identity ⊆ doc
  values_subset : ∀ {mapped item x}, Reads schema members mapped item →
    parseFor P mapped item = .ok (.ok (some x)) → addParsed P mapped x ⊆ doc
  dynamic_mem : unmapped schema members ≠ [] →
    (schema.dynamic, .object (unmapped schema members)) ∈ doc

theorem addParsed_subset_of_reads {item : Value} {x : Indexed} {added : Added}
    (h : indexMembers P schema members = .ok added) (hreads : Reads schema members mapped item)
    (hx : parseFor P mapped item = .ok (.ok (some x))) : addParsed P mapped x ⊆ added.leaves := by
  obtain ⟨m, hm, d, hd, hitem, path, hpath, hfield⟩ := hreads
  have hitemOk : indexItem P mapped item = .ok ⟨addParsed P mapped x, 0⟩ := by
    rw [indexItem, hx]
    rfl
  -- Each of the three nested passes ended, since the outer one did.
  obtain ⟨ofMember, hofMember⟩ : ∃ a, indexMapped P schema m.1 m.2 d = .ok a := by
    cases hres : indexMapped P schema m.1 m.2 d with
    | ok a => exact ⟨a, rfl⟩
    | error p =>
      grind [Added.all_eq_error_iff, indexMembers]
  have hpass := (indexMapped_eq P schema m.1 m.2 d).symm.trans hofMember
  obtain ⟨ofPath, hofPath⟩ : ∃ a, indexPath P schema m.2 path = .ok a := by
    cases hres : indexPath P schema m.2 path with
    | ok a => exact ⟨a, rfl⟩
    | error p =>
      grind [Added.all_eq_error_iff]
  have hitems : Added.all ((flatten m.2).map (indexItem P mapped)) = .ok ofPath := by
    grind [indexPath]
  calc addParsed P mapped x
      ⊆ ofPath.leaves :=
        Added.leaves_subset_of_mem hitems (mem_map.mpr ⟨item, hitem, hitemOk⟩)
    _ ⊆ ofMember.leaves :=
        Added.leaves_subset_of_mem hpass (mem_map.mpr ⟨path, hpath, hofPath⟩)
    _ ⊆ added.leaves :=
        Added.leaves_subset_of_mem h (mem_filterMap.mpr ⟨m, hm, by rw [hd, Option.map_some, hofMember]⟩)

theorem mem_dynamicLeaves {dynamic : Members} (h : dynamic ≠ []) :
    (schema.dynamic, .object dynamic) ∈ dynamicLeaves schema dynamic := by
  grind [dynamicLeaves]

theorem convertWithSource_holds {source : String} (h : ¬CutsDate schema members) :
    ∃ c, convertWithSource P schema (.object members) (some source) identity fallback
        = .ok (.ok c) ∧ Holds P schema members source identity c.doc := by
  rw [CutsDate, ← extractTimestamp_eq_error_iff (p := .notCharBoundary),
    ← indexMembers_eq_error_iff (P := P) (p := .notCharBoundary), not_or] at h
  rw [convertWithSource_object]
  cases htime : extractTimestamp (.object members) with
  | error p =>
    cases p
    exact absurd htime h.1
  | ok timestamp =>
    cases hadded : indexMembers P schema members with
    | error p =>
      cases p
      exact absurd hadded h.2
    | ok added =>
      refine ⟨_, rfl, ?_, fun leaf hleaf => ?_, fun hreads hx leaf hleaf => ?_, fun hdyn => ?_⟩
      · simp
      · simp [hleaf]
      · simp [addParsed_subset_of_reads hadded hreads hx hleaf]
      · simp [mem_dynamicLeaves hdyn]

end RSearch.Index
