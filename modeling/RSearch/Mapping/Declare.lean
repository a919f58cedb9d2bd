import RSearch.Index.Document

/-!
# Mappings as they are declared and stored

A mapping is a JSON object.  Its `properties` declare the fields, and each declaration can have
multi-fields under `fields`, to any depth.  `IndexMapping.parse` reads such an object, refusing what it
does not support, and `FieldDef.toJson` renders a declaration back.
-/

namespace RSearch.Mapping

open List Option Except

open Json (Value Members)
open Index (FieldType NormalizerFilter Platform)

inductive MappingError where
  | invalidMapping (reason : String)
  | mapperParsing (reason : String)
  | illegalArgument (reason : String)
  deriving DecidableEq

def MappingError.text : MappingError → String
  | .invalidMapping reason => "invalid mapping: " ++ reason
  | .mapperParsing reason | .illegalArgument reason => reason

structure FieldDef where
  ty : FieldType
  declared : String
  normalizer : Option String := none
  ignoreAbove : Option ℕ := none
  ignoreMalformed : Bool := false
  metadata : Option Value := none
  fields : List (String × FieldDef) := []

open FieldDef

structure IndexMapping where
  properties : List (String × FieldDef) := []
  normalizers : List (String × List NormalizerFilter) := []

open IndexMapping

/-! ### Types and parameters -/

def FieldType.parse : String → Except MappingError FieldType
  | "keyword" => .ok .keyword
  | "long" | "integer" | "short" | "byte" => .ok .long
  | "double" | "float" | "half_float" => .ok .double
  | "text" => .ok .text
  | "boolean" => .ok .boolean
  | "date" => .ok .date
  | "ip" => .ok .ip
  | other => .error (.invalidMapping s!"unsupported field type '{other}'")

def FieldType.takesIgnoreMalformed : FieldType → Bool
  | .long | .double | .date | .ip => true
  | .keyword | .text | .boolean => false

def unknownParameter (key path ty : String) : MappingError :=
  .mapperParsing s!"unknown parameter [{key}] on mapper [{path}] of type [{ty}]"

def inertDefault (ty : FieldType) (key : String) : Option Value :=
  let text := decide (ty = .text)
  match key with
  | "index" | "enabled" => some (.bool true)
  | "doc_values" => some (.bool (!text))
  | "store" => some (.bool false)
  | "norms" => some (.bool text)
  | "boost" => some (.number (.float (F64.ofInt 1)))
  | "similarity" => some (.string "BM25")
  | "copy_to" | "null_value" => some .null
  | "coerce" => if ty = .long ∨ ty = .double then some (.bool true) else none
  | "index_options" => some (.string (if text then "positions" else "docs"))
  | "eager_global_ordinals" | "split_queries_on_whitespace" =>
    if ty = .keyword then some (.bool false) else none
  | "fielddata" => if text then some (.bool false) else none
  | "term_vector" => if text then some (.string "no") else none
  | "position_increment_gap" => if text then some (.number (.posInt 100)) else none
  | "analyzer" | "search_analyzer" | "search_quote_analyzer" =>
    if text then some (.string "standard") else none
  | "format" => if ty = .date then some (.string Index.defaultDateFormat) else none
  | _ => none

def renderDefault (P : Platform) (value : Value) : String := value.asStr.getD (P.toString value)

/-- Is the value the inert one?  An explicit null and an empty list are no value at all.  A default is
never an array or an object. -/
def isDefault : Value → Value → Bool
  | .null, _ | .array [], _ => true
  | .number a, .number b => a.asF64 = b.asF64
  | .bool a, .bool b => a == b
  | .string a, .string b => a == b
  | _, _ => false

inductive Param where
  | fields (subs : List (String × FieldDef))
  | normalizer (name : String)
  | ignoreAbove (limit : ℕ)
  | ignoreMalformed (flag : Bool)
  | metadata (value : Value)
  /-- The type, or a parameter at its default. -/
  | inert

def Param.fields? : Param → Option (List (String × FieldDef))
  | .fields subs => some subs
  | _ => none

def Param.normalizer? : Param → Option String
  | .normalizer name => some name
  | _ => none

def Param.ignoreAbove? : Param → Option ℕ
  | .ignoreAbove limit => some limit
  | _ => none

def Param.ignoreMalformed? : Param → Option Bool
  | .ignoreMalformed flag => some flag
  | _ => none

def Param.metadata? : Param → Option Value
  | .metadata value => some value
  | _ => none

def readParameter (P : Platform) (path ty : String) (parsed : FieldType) (key : String)
    (value : Value) : Except MappingError Param :=
  match key with
  | "type" => .ok .inert
  | "normalizer" =>
    if parsed ≠ .keyword then .error (unknownParameter key path ty)
    else
      match value.asStr with
      | some name => .ok (.normalizer name)
      | none => .error (.mapperParsing s!"[normalizer] on mapper [{path}] must be a string")
  | "ignore_above" =>
    if parsed ≠ .keyword then .error (unknownParameter key path ty)
    else
      match value with
      | .number (.posInt limit) => .ok (.ignoreAbove limit)
      | _ => .error (.mapperParsing
          s!"[ignore_above] on mapper [{path}] must be a non-negative integer")
  | "ignore_malformed" =>
    if ¬FieldType.takesIgnoreMalformed parsed then .error (unknownParameter key path ty)
    else
      match value.asBool with
      | some flag => .ok (.ignoreMalformed flag)
      | none => .error (.mapperParsing s!"[ignore_malformed] on mapper [{path}] must be a boolean")
  | "meta" =>
    if value.isObject then .ok (.metadata value)
    else .error (.mapperParsing s!"[meta] on mapper [{path}] must be an object")
  | other =>
    match inertDefault parsed other with
    | some default =>
      if isDefault value default then .ok .inert
      else
        let shown := renderDefault P default
        .error (.mapperParsing (s!"parameter [{other}] on mapper [{path}] of type [{ty}] is " ++
          s!"supported only at its default value [{shown}]"))
    | none => .error (unknownParameter other path ty)

def FieldDef.ofParams (ty : FieldType) (declared : String) (params : List Param) : FieldDef where
  ty := ty
  declared := declared
  normalizer := params.findSome? Param.normalizer?
  ignoreAbove := params.findSome? Param.ignoreAbove?
  ignoreMalformed := (params.findSome? Param.ignoreMalformed?).getD false
  metadata := params.findSome? Param.metadata?
  fields := (params.findSome? Param.fields?).getD []

def typeName (path : String) (topLevel : Bool) (members : Members) : Except MappingError String :=
  match (members.get "type").bind Value.asStr with
  | some ty => .ok ty
  | none =>
    if topLevel then .error (.mapperParsing s!"No type specified for field [{path}]")
    else .error (.mapperParsing s!"no type specified for property [{path}]")

/-! ### Reading -/

mutual

def FieldDef.fromJson (P : Platform) (path : String) (topLevel : Bool) :
    Value → Except MappingError FieldDef
  | .object members => do
    let ty ← typeName path topLevel members
    let parsed ← FieldType.parse ty
    let params ← readParams P path ty parsed members
    pure (.ofParams parsed ty params)
  | _ => .error (.mapperParsing s!"expected map for property [{path}]")

def readParams (P : Platform) (path ty : String) (parsed : FieldType) :
    List (String × Value) → Except MappingError (List Param)
  | [] => pure []
  | (key, value) :: members => do
    let param ← readParam P path ty parsed key value
    let params ← readParams P path ty parsed members
    pure (param :: params)

def readParam (P : Platform) (path ty : String) (parsed : FieldType) (key : String) :
    Value → Except MappingError Param
  | .object members =>
    if key = "fields" then do
      let subs ← readSubs P path members
      pure (.fields subs)
    else readParameter P path ty parsed key (.object members)
  | value =>
    if key = "fields" then
      .error (.mapperParsing s!"[fields] must be an object on mapper [{path}]")
    else readParameter P path ty parsed key value

def readSubs (P : Platform) (path : String) :
    List (String × Value) → Except MappingError (List (String × FieldDef))
  | [] => pure []
  | (name, value) :: members =>
    if name = "" then
      .error (.mapperParsing
        s!"field name cannot be an empty string in [fields] on mapper [{path}]")
    else do
      let sub ← FieldDef.fromJson P (path ++ "." ++ name) false value
      let subs ← readSubs P path members
      pure ((name, sub) :: subs)

end

def NormalizerFilter.parse : String → Option NormalizerFilter
  | "lowercase" => some .lowercase
  | "uppercase" => some .uppercase
  | "asciifolding" => some .asciiFolding
  | "trim" => some .trim
  | _ => none

def readFilter (name : String) (filter : Value) : Except MappingError NormalizerFilter :=
  match filter.asStr with
  | none => .error (.illegalArgument s!"normalizer [{name}] filter names must be strings")
  | some filterName =>
    match NormalizerFilter.parse filterName with
    | some parsed => .ok parsed
    | none => .error (.illegalArgument
        s!"Custom normalizer [{name}] may not use filter [{filterName}]")

def parseNormalizer (name : String) (value : Value) : Except MappingError (List NormalizerFilter) :=
  match value.asObject with
  | none => .error (.illegalArgument s!"normalizer [{name}] must be an object")
  | some members =>
    match (members.get "type").bind Value.asStr, members.get "char_filter", members.get "filter" with
    | some ty, charFilter, filter =>
      if ty ≠ "custom" then
        .error (.illegalArgument s!"Unknown normalizer type [{ty}] for [{name}]")
      else filters charFilter filter
    | none, charFilter, filter => filters charFilter filter
where
  /-- No character filters, and a list of known filters. -/
  filters (charFilter filter : Option Value) : Except MappingError (List NormalizerFilter) :=
    match charFilter, filter with
    | none, none | some (.array []), none => .ok []
    | none, some (.array declared) | some (.array []), some (.array declared) =>
      declared.mapM (readFilter name)
    | none, some _ | some (.array []), some _ =>
      .error (.illegalArgument s!"normalizer [{name}] filter must be an array")
    | some _, _ =>
      .error (.illegalArgument s!"Custom normalizer [{name}] may not use char filters")

mutual

def checkReferences (normalizers : List (String × List NormalizerFilter)) (path : String) :
    FieldDef → Except MappingError Unit
  | ⟨_, _, normalizer, _, _, _, fields⟩ =>
    match normalizer with
    | some name =>
      if (normalizers.lookup name).isNone then
        .error (.mapperParsing s!"normalizer [{name}] not found for field [{path}]")
      else checkSubReferences normalizers path fields
    | none => checkSubReferences normalizers path fields

def checkSubReferences (normalizers : List (String × List NormalizerFilter)) (path : String) :
    List (String × FieldDef) → Except MappingError Unit
  | [] => pure ()
  | (name, sub) :: subs => do
    checkReferences normalizers (path ++ "." ++ name) sub
    checkSubReferences normalizers path subs

end

def readProperty (P : Platform) (member : String × Value) : Except MappingError (String × FieldDef) :=
  if member.1.toList.head? = some '_' then
    let name := member.1
    .error (.invalidMapping s!"field name '{name}' is reserved")
  else (FieldDef.fromJson P member.1 true member.2).map (member.1, ·)

namespace IndexMapping

def checkNormalizerReferences (mapping : IndexMapping) : Except MappingError Unit :=
  mapping.properties.forM fun (name, field) => checkReferences mapping.normalizers name field

def parse (P : Platform) (normalizers : List (String × List NormalizerFilter)) (mapping : Value) :
    Except MappingError IndexMapping :=
  match mapping.get "properties" with
  | none => .ok { normalizers }
  | some props =>
    match props.asObject with
    | none => .error (.invalidMapping "'properties' must be an object")
    | some members => do
      let properties ← members.mapM (readProperty P)
      let parsed : IndexMapping := { properties, normalizers }
      parsed.checkNormalizerReferences
      pure parsed

def fromJson (P : Platform) (mapping : Value) : Except MappingError IndexMapping :=
  match mapping.get "_normalizers" with
  | none => parse P [] mapping
  | some stored =>
    match stored.asObject with
    | none => .error (.invalidMapping "stored normalizers must be an object")
    | some members => do
      let normalizers ← members.mapM fun (name, value) =>
        (parseNormalizer name value).map (name, ·)
      parse P normalizers mapping

def fromMappingUpdate (P : Platform) (mappings : Value) (existing : IndexMapping) :
    Except MappingError IndexMapping :=
  parse P existing.normalizers mappings

end IndexMapping

/-! ### Rendering -/

def insertSome (key : String) (value : Option Value) (members : Members) : Members :=
  match value with
  | some value => members.insert key value
  | none => members

mutual

def FieldDef.toJson : FieldDef → Value
  | ⟨_, declared, normalizer, ignoreAbove, ignoreMalformed, metadata, fields⟩ =>
    let out : Members := [("type", .string declared)]
    let out := insertSome "normalizer" (normalizer.map .string) out
    let out := insertSome "ignore_above" (ignoreAbove.map fun n => .number (.posInt n)) out
    let out := insertSome "ignore_malformed" (if ignoreMalformed then some (.bool true) else none) out
    let out := insertSome "meta" metadata out
    .object (insertSome "fields"
      (if fields.isEmpty then none else some (.object (subsToJson fields))) out)

def subsToJson : List (String × FieldDef) → List (String × Value)
  | [] => []
  | (name, sub) :: subs => (name, sub.toJson) :: subsToJson subs

end

/-! ### Paths -/

def fieldAt : List String → Value → Option Value
  | [], field => some field
  | name :: rest, field => ((field.get "fields").bind (·.get name)).bind (fieldAt rest)

def propertiesOf (mapping : Value) : Members :=
  ((mapping.get "properties").bind Value.asObject).getD []

/-- **The declaration at a path of a mapping**: a property, a multi-field of it, and so on. -/
def declAt (mapping : Value) : List String → Option Value
  | [] => none
  | name :: rest => ((mapping.get "properties").bind (·.get name)).bind (fieldAt rest)

theorem get_subsToJson (subs : List (String × FieldDef)) (name : String) :
    Members.get (subsToJson subs) name = (subs.lookup name).map toJson := by
  induction subs with
  | nil => rfl
  | cons head subs ih =>
    rw [subsToJson, Members.get, lookup_cons, lookup_cons]
    split
    · rfl
    · exact ih

@[simp] theorem get_nil (key : String) : Members.get [] key = none := rfl

theorem get_insertSome (key key' : String) (value : Option Value) (members : Members) :
    (insertSome key value members).get key' =
      if key' = key then value.or (members.get key') else members.get key' := by
  cases value <;> simp [insertSome, Members.get_insert]

theorem get_fields_toJson (field : FieldDef) : field.toJson.get "fields" =
    if field.fields.isEmpty then none else some (.object (subsToJson field.fields)) := by
  cases field
  simp [toJson, Value.get, get_insertSome, Members.get_cons]

variable {field : FieldDef}

theorem sub_toJson {name : String} {sub : FieldDef} (hsub : field.fields.lookup name = some sub) :
    (field.toJson.get "fields").bind (·.get name) = some sub.toJson := by
  have hfields : field.fields.isEmpty = false := by
    cases hfields : field.fields with
    | nil => simp [hfields] at hsub
    | cons head subs => rfl
  rw [get_fields_toJson, hfields, if_neg Bool.false_ne_true, bind_some, Value.get,
    get_subsToJson, hsub, map_some]

section Read

variable {P : Platform} {path ty : String} {parsed : FieldType} {name : String} {value : Value}

theorem fields?_readParameter {key : String} {param : Param}
    (h : readParameter P path ty parsed key value = .ok param) : param.fields? = none := by
  unfold readParameter at h
  split at h
  all_goals (try split at h) <;> (try split at h)
  all_goals first | (cases h; rfl) | cases h

variable {members : Members}

theorem sub_of_readSubs {subs : List (String × FieldDef)} (h : readSubs P path members = .ok subs)
    (hvalue : members.get name = some value) :
    ∃ sub, subs.lookup name = some sub ∧
      fromJson P (path ++ "." ++ name) false value = .ok sub := by
  induction members generalizing subs with
  | nil => cases hvalue
  | cons head members ih =>
    rw [readSubs] at h
    split_ifs at h with hempty
    obtain ⟨sub, hsub, h⟩ := of_bind h
    obtain ⟨rest, hrest, h⟩ := of_bind h
    cases h
    rw [Members.get, lookup_cons] at hvalue
    rw [lookup_cons]
    split at hvalue
    · next heq =>
        cases hvalue
        rw [beq_iff_eq.mp heq] at *
        exact ⟨sub, by simp, hsub⟩
    · exact ih hrest hvalue

theorem fields_of_readParams {params : List Param}
    (h : readParams P path ty parsed members = .ok params) (hvalue : members.get "fields" = some value) :
    ∃ inner subs, value = .object inner ∧ readSubs P path inner = .ok subs ∧
      params.findSome? Param.fields? = some subs := by
  induction members generalizing params with
  | nil => cases hvalue
  | cons head members ih =>
    obtain ⟨key, first⟩ := head
    obtain ⟨param, hparam, h⟩ := of_bind h
    obtain ⟨rest, hrest, h⟩ := of_bind h
    cases h
    rw [Members.get_cons] at hvalue
    split_ifs at hvalue with hkey
    · cases hvalue
      cases value with
      | object inner =>
        rw [readParam, if_pos hkey.symm] at hparam
        obtain ⟨subs, hsubs, h⟩ := of_bind hparam
        cases h
        exact ⟨inner, subs, rfl, hsubs, rfl⟩
      | null | bool | number | string | array =>
        rw [readParam, if_pos hkey.symm] at hparam
        · cases hparam
        · simp
    · obtain ⟨inner, subs, hinner, hsubs, hfound⟩ := ih hrest hvalue
      have hother : param.fields? = none := by
        cases first with
        | object => exact fields?_readParameter (by rwa [readParam, if_neg (Ne.symm hkey)] at hparam)
        | null | bool | number | string | array =>
          refine fields?_readParameter (by rwa [readParam, if_neg (Ne.symm hkey)] at hparam; simp)
      exact ⟨inner, subs, hinner, hsubs, by rw [findSome?_cons, hother]; exact hfound⟩

theorem sub_of_fromJson {topLevel : Bool} {field : FieldDef} {sub : Value}
    (h : fromJson P path topLevel value = .ok field)
    (hsub : (value.get "fields").bind (·.get name) = some sub) :
    ∃ read, field.fields.lookup name = some read ∧
      fromJson P (path ++ "." ++ name) false sub = .ok read := by
  obtain ⟨fields, hfields, hname⟩ := bind_eq_some_iff.mp hsub
  cases value with
  | object members =>
    obtain ⟨ty, -, h⟩ := of_bind h
    obtain ⟨parsed, -, h⟩ := of_bind h
    obtain ⟨params, hparams, h⟩ := of_bind h
    cases h
    obtain ⟨inner, subs, rfl, hsubs, hfound⟩ := fields_of_readParams hparams hfields
    rw [ofParams, hfound]
    exact sub_of_readSubs hsubs hname
  | null | bool | number | string | array => cases hfields

end Read

theorem fieldAt_toJson {P : Platform} {path : String} {topLevel : Bool} {value : Value}
    {rest : List String} (h : fromJson P path topLevel value = .ok field)
    (hdeclared : (fieldAt rest value).isSome) : (fieldAt rest field.toJson).isSome := by
  induction rest generalizing path topLevel value field with
  | nil => rfl
  | cons name rest ih =>
    obtain ⟨found, hfound⟩ := isSome_iff_exists.mp hdeclared
    obtain ⟨sub, hsub, hrest⟩ := bind_eq_some_iff.mp hfound
    obtain ⟨read, hlookup, hread⟩ := sub_of_fromJson h hsub
    rw [fieldAt, sub_toJson hlookup]
    exact ih hread (isSome_iff_exists.mpr ⟨found, hrest⟩)

/-! ### Properties -/

section Properties

variable {P : Platform} {members : Members} {properties : List (String × FieldDef)}

theorem readProperty_eq_ok {member : String × Value} {property : String × FieldDef}
    (h : readProperty P member = .ok property) :
    property.1 = member.1 ∧ fromJson P member.1 true member.2 = .ok property.2 := by
  unfold readProperty at h
  split_ifs at h
  obtain ⟨field, hfield, rfl⟩ := map_eq_ok_iff.mp h
  exact ⟨rfl, hfield⟩

theorem keys_of_mapM (h : members.mapM (readProperty P) = .ok properties) :
    properties.map Prod.fst = members.map Prod.fst := by
  induction members generalizing properties with
  | nil =>
    cases h
    rfl
  | cons member members ih =>
    rw [mapM_cons] at h
    obtain ⟨property, hproperty, h⟩ := of_bind h
    obtain ⟨rest, hrest, h⟩ := of_bind h
    cases h
    rw [map_cons, map_cons, ih hrest, (readProperty_eq_ok hproperty).1]

variable {value : Value} {mapping : IndexMapping}

theorem property_of_mapM (h : members.mapM (readProperty P) = .ok properties) {name : String}
    (hvalue : members.get name = some value) :
    ∃ field, properties.lookup name = some field ∧ fromJson P name true value = .ok field := by
  induction members generalizing properties with
  | nil => cases hvalue
  | cons member members ih =>
    rw [mapM_cons] at h
    obtain ⟨⟨key, field⟩, hproperty, h⟩ := of_bind h
    obtain ⟨rest, hrest, h⟩ := of_bind h
    cases h
    obtain ⟨hkey, hfield⟩ := readProperty_eq_ok hproperty
    subst hkey
    rw [Members.get, lookup_cons] at hvalue
    rw [lookup_cons]
    split at hvalue
    · next heq =>
        cases hvalue
        rw [beq_iff_eq.mp heq] at *
        exact ⟨field, by simp, hfield⟩
    · exact ih hrest hvalue

theorem IndexMapping.properties_of_parse {normalizers : List (String × List NormalizerFilter)}
    (h : parse P normalizers value = .ok mapping) :
    (propertiesOf value).mapM (readProperty P) = .ok mapping.properties := by
  unfold parse at h
  unfold propertiesOf
  cases hprops : value.get "properties" with
  | none =>
    rw [hprops] at h
    cases h
    rfl
  | some props =>
    rw [hprops] at h
    cases hmembers : props.asObject with
    | none =>
      simp only [hmembers] at h
      cases h
    | some members =>
      simp only [hmembers] at h
      obtain ⟨properties, hproperties, h⟩ := of_bind h
      obtain ⟨-, -, h⟩ := of_bind h
      cases h
      simpa [hmembers] using hproperties

theorem IndexMapping.properties_of_fromJson (h : fromJson P value = .ok mapping) :
    (propertiesOf value).mapM (readProperty P) = .ok mapping.properties := by
  unfold fromJson at h
  split at h
  · exact properties_of_parse h
  · split at h
    · cases h
    · obtain ⟨normalizers, -, h⟩ := of_bind h
      exact properties_of_parse h

theorem declAt_cons (mapping : Value) (name : String) (rest : List String) :
    declAt mapping (name :: rest) = ((propertiesOf mapping).get name).bind (fieldAt rest) := by
  rw [declAt, propertiesOf]
  cases hprops : mapping.get "properties" with
  | none => rfl
  | some props =>
    cases props with
    | object | null | bool | number | string | array => rfl

end Properties

end RSearch.Mapping
