import RSearch.Mapping.Update

/-!
# A stored mapping reads back as it was written

A mapping is written into the splits as JSON.  A split's reader refuses every parameter it does not
know, and then goes on with the *empty* mapping, under which every column has another number.  So the
writer must never render what the parser refuses.
-/

namespace RSearch.Mapping

open List Option Except FieldDef NormalizerFilter

open Json (Value Members)
open Index (FieldType NormalizerFilter MappedField MappedSchema Platform)

/-! ### Normalizers and mappings as JSON -/

def NormalizerFilter.asStr : NormalizerFilter → String
  | .lowercase => "lowercase"
  | .uppercase => "uppercase"
  | .asciiFolding => "asciifolding"
  | .trim => "trim"

def normalizerToJson (filters : List NormalizerFilter) : Value :=
  .object [("filter", .array (filters.map fun filter => .string (NormalizerFilter.asStr filter))),
    ("type", .string "custom")]

namespace IndexMapping

/-- The stored shape: the `properties` and, if there are any, the resolved normalizers. -/
def toJson (mapping : IndexMapping) : Value :=
  let out : Members := [("properties", .object (subsToJson mapping.properties))]
  .object (insertSome "_normalizers"
    (if mapping.normalizers.isEmpty then none
      else some (.object (mapping.normalizers.map fun (name, filters) =>
        (name, normalizerToJson filters)))) out)

def declaredNormalizers (settings : Option Value) : Option Value :=
  let under (root : Option Value) := (root.bind (·.get "analysis")).bind (·.get "normalizer")
  (under settings).or (under (settings.bind (·.get "index")))

def fromRequest (P : Platform) (mappings : Value) (settings : Option Value) :
    Except MappingError IndexMapping :=
  match declaredNormalizers settings with
  | none => parse P [] mappings
  | some declared =>
    match declared.asObject with
    | none => .error (.illegalArgument "[analysis.normalizer] must be an object")
    | some members => do
      let normalizers ← members.mapM fun (name, value) =>
        (parseNormalizer name value).map (name, ·)
      parse P normalizers mappings

end IndexMapping

/-! ### The schema of a mapping -/

mutual

def FieldDef.paths (path : String) : FieldDef → List (String × FieldDef)
  | ⟨ty, declared, normalizer, ignoreAbove, ignoreMalformed, metadata, fields⟩ =>
    (path, ⟨ty, declared, normalizer, ignoreAbove, ignoreMalformed, metadata, fields⟩)
      :: subPaths path fields

def subPaths (path : String) : List (String × FieldDef) → List (String × FieldDef)
  | [] => []
  | (name, sub) :: subs => sub.paths (path ++ "." ++ name) ++ subPaths path subs

end

mutual

def FieldDef.indexed : FieldDef → Index.FieldDef
  | ⟨ty, _, normalizer, ignoreAbove, ignoreMalformed, _, fields⟩ =>
    ⟨ty, normalizer, ignoreAbove, ignoreMalformed, indexedSubs fields⟩

def indexedSubs : List (String × FieldDef) → List (String × Index.FieldDef)
  | [] => []
  | (name, sub) :: subs => (name, sub.indexed) :: indexedSubs subs

end

namespace IndexMapping

def paths (mapping : IndexMapping) : List (String × FieldDef) :=
  mapping.properties.flatMap fun (name, field) => field.paths name

def column (mapping : IndexMapping) (field : FieldDef) (ordinal : ℕ) : MappedField where
  field := ordinal
  ty := field.ty
  normalizer := field.normalizer.bind fun name => mapping.normalizers.lookup name
  ignoreAbove := field.ignoreAbove
  ignoreMalformed := field.ignoreMalformed

/-- **The schema of a layout version.**  The source, the timestamp and the dynamic column come first,
then a column for each declared path, and last what later versions appended. -/
def buildVersioned (mapping : IndexMapping) (version : ℕ) : MappedSchema where
  source := 0
  timestamp := 1
  dynamic := 2
  fields := (mapping.paths.zipIdx 3).map fun ((path, field), ordinal) =>
    (path, mapping.column field ordinal)
  mapping := ⟨indexedSubs mapping.properties, mapping.normalizers⟩
  id := if 1 ≤ version then some (mapping.paths.length + 3) else none
  seq := if 1 ≤ version then some (mapping.paths.length + 4) else none
  dynamicRaw := if 2 ≤ version then some (mapping.paths.length + 5) else none

end IndexMapping

/-- **The schema a split's reader works with**, from the mapping and the version the split holds. -/
def readerSchema (P : Platform) (stored : Value) (version : ℕ) : MappedSchema :=
  (existingOf P stored).buildVersioned version

/-! ### What a member of a declaration can say -/

section Members

variable {P : Platform} {path ty : String} {parsed : FieldType} {members : Members}
  {params : List Param}

inductive Accepts (P : Platform) (path : String) (parsed : FieldType) : String → Value → Param → Prop
  | fields {members : Members} {subs : List (String × FieldDef)}
      (hsubs : readSubs P path members = .ok subs) :
      Accepts P path parsed "fields" (.object members) (.fields subs)
  | normalizer (hty : parsed = .keyword) (name : String) :
      Accepts P path parsed "normalizer" (.string name) (.normalizer name)
  | ignoreAbove (hty : parsed = .keyword) (limit : ℕ) :
      Accepts P path parsed "ignore_above" (.number (.posInt limit)) (.ignoreAbove limit)
  | ignoreMalformed (hty : FieldType.takesIgnoreMalformed parsed) (flag : Bool) :
      Accepts P path parsed "ignore_malformed" (.bool flag) (.ignoreMalformed flag)
  | metadata {value : Value} (hvalue : value.isObject) :
      Accepts P path parsed "meta" value (.metadata value)
  | inert {key : String} {value : Value} (hkey : key ∉ ["fields", "normalizer", "ignore_above",
        "ignore_malformed", "meta"]) : Accepts P path parsed key value .inert

variable {key : String} {value : Value} {param : Param}

theorem accepts_of_readParameter (hkey : key ≠ "fields")
    (h : readParameter P path ty parsed key value = .ok param) :
    Accepts P path parsed key value param := by
  unfold readParameter at h
  split at h
  · cases h
    exact .inert (by decide)
  · split_ifs at h with hty
    cases value with
    | string name =>
      cases h
      exact .normalizer (not_not.mp hty) name
    | null | bool | number | array | object => cases h
  · split_ifs at h with hty
    split at h
    · cases h
      exact .ignoreAbove (not_not.mp hty) _
    · cases h
  · split_ifs at h with hty
    cases value with
    | bool flag =>
      cases h
      exact .ignoreMalformed hty flag
    | null | string | number | array | object => cases h
  · split_ifs at h with hvalue
    cases h
    exact .metadata hvalue
  · next hnorm habove hmal hmeta =>
      have hinert : key ∉ ["fields", "normalizer", "ignore_above", "ignore_malformed", "meta"] := by
        grind
      split at h
      · split_ifs at h
        cases h
        exact .inert hinert
      · cases h

theorem accepts_of_readParam (h : readParam P path ty parsed key value = .ok param) :
    Accepts P path parsed key value param := by
  by_cases hkey : key = "fields"
  · subst hkey
    cases value with
    | object members =>
      obtain ⟨subs, hsubs, h⟩ := of_bind h
      cases h
      exact .fields hsubs
    | null | bool | number | string | array =>
      grind [readParam]
  · cases value with
    | object => grind [accepts_of_readParameter, readParam]
    | null | bool | number | string | array =>
      grind [accepts_of_readParameter, readParam]

theorem readParam_of_accepts (h : Accepts P path parsed key value param) (hparam : param ≠ .inert) :
    readParam P path ty parsed key value = .ok param := by
  cases h with
  | fields hsubs =>
    rw [readParam, if_pos rfl, hsubs]
    rfl
  | normalizer hty name => simp [readParam, readParameter, hty, Value.asStr]
  | ignoreAbove hty limit => simp [readParam, readParameter, hty]
  | ignoreMalformed hty flag => simp [readParam, readParameter, hty, Value.asBool]
  | metadata hvalue =>
    cases value with
    | object members => rfl
    | null | bool | number | string | array => cases hvalue
  | inert => exact absurd rfl hparam

theorem accepts_of_mem (h : readParams P path ty parsed members = .ok params) (hmem : param ∈ params) :
    ∃ key value, Accepts P path parsed key value param := by
  induction members generalizing params with
  | nil =>
    cases h
    cases hmem
  | cons member members ih =>
    obtain ⟨first, hfirst, h⟩ := of_bind h
    obtain ⟨rest, hrest, h⟩ := of_bind h
    cases h
    rcases mem_cons.mp hmem with rfl | hmem
    · exact ⟨_, _, accepts_of_readParam hfirst⟩
    · exact ih hrest hmem

theorem exists_readParams
    (h : ∀ member ∈ members, ∃ param, readParam P path ty parsed member.1 member.2 = .ok param) :
    ∃ params, readParams P path ty parsed members = .ok params := by
  induction members with
  | nil => exact ⟨[], rfl⟩
  | cons member members ih =>
    obtain ⟨⟨param, hparam⟩, htail⟩ := forall_mem_cons.mp h
    obtain ⟨params, hparams⟩ := ih htail
    exact ⟨param :: params, by rw [readParams, hparam, hparams]; rfl⟩

theorem findSome?_readParams {β : Type} {sel : Param → Option β} (key : String) {read : Option β}
    (hother : ∀ key' value param, key' ≠ key → Accepts P path parsed key' value param →
      sel param = none) (hself : ∀ value, members.get key = some value → ∃ param,
      readParam P path ty parsed key value = .ok param ∧ sel param = read ∧ read.isSome)
    (habsent : members.get key = none → read = none)
    (h : readParams P path ty parsed members = .ok params) : params.findSome? sel = read := by
  induction members generalizing params with
  | nil =>
    cases h
    exact (habsent rfl).symm
  | cons member members ih =>
    obtain ⟨key', value⟩ := member
    obtain ⟨param, hparam, h⟩ := of_bind h
    obtain ⟨rest, hrest, h⟩ := of_bind h
    cases h
    rw [findSome?_cons]
    by_cases hkey : key = key'
    · subst hkey
      obtain ⟨param', hparam', hsel, hsome⟩ := hself value (by rw [Members.get_cons, if_pos rfl])
      grind
    · rw [hother key' value param (Ne.symm hkey) (accepts_of_readParam hparam)]
      rw [Members.get_cons, if_neg hkey] at hself habsent
      exact ih hself habsent hrest

end Members

/-! ### Readable declarations -/

structure FieldDef.Consistent (field : FieldDef) : Prop where
  type : FieldType.parse field.declared = .ok field.ty
  normalizer : field.normalizer.isSome → field.ty = .keyword
  ignoreAbove : field.ignoreAbove.isSome → field.ty = .keyword
  ignoreMalformed : field.ignoreMalformed → FieldType.takesIgnoreMalformed field.ty
  metadata : ∀ value ∈ field.metadata, value.isObject

mutual

/-- **A declaration the parser accepts**: consistent, with all its multi-fields, and these have
names. -/
def Readable : FieldDef → Prop
  | ⟨ty, declared, normalizer, ignoreAbove, ignoreMalformed, metadata, fields⟩ =>
    FieldDef.Consistent
        ⟨ty, declared, normalizer, ignoreAbove, ignoreMalformed, metadata, fields⟩ ∧
      ReadableSubs fields

def ReadableSubs : List (String × FieldDef) → Prop
  | [] => True
  | (name, sub) :: subs => name ≠ "" ∧ Readable sub ∧ ReadableSubs subs

end

theorem readable_iff (field : FieldDef) :
    Readable field ↔ field.Consistent ∧ ReadableSubs field.fields := by
  cases field
  rw [Readable]

section Parsed

variable {P : Platform} {path ty : String} {parsed : FieldType} {params : List Param}

theorem consistent_ofParams (hty : FieldType.parse ty = .ok parsed)
    (h : ∀ param ∈ params, ∃ key value, Accepts P path parsed key value param) :
    (ofParams parsed ty params).Consistent where
  type := hty
  normalizer hsome := by
    obtain ⟨name, hname⟩ := isSome_iff_exists.mp hsome
    obtain ⟨param, hmem, hparam⟩ := exists_of_findSome?_eq_some hname
    obtain ⟨key, value, haccepts⟩ := h param hmem
    cases haccepts with
    | normalizer hkeyword name => exact hkeyword
    | fields | ignoreAbove | ignoreMalformed | metadata | inert => cases hparam
  ignoreAbove hsome := by
    obtain ⟨limit, hlimit⟩ := isSome_iff_exists.mp hsome
    obtain ⟨param, hmem, hparam⟩ := exists_of_findSome?_eq_some hlimit
    obtain ⟨key, value, haccepts⟩ := h param hmem
    cases haccepts with
    | ignoreAbove hkeyword limit => exact hkeyword
    | fields | normalizer | ignoreMalformed | metadata | inert => cases hparam
  ignoreMalformed hflag := by
    cases hfound : params.findSome? Param.ignoreMalformed? with
    | none => simp [ofParams, hfound] at hflag
    | some flag =>
      obtain ⟨param, hmem, hparam⟩ := exists_of_findSome?_eq_some hfound
      obtain ⟨key, value, haccepts⟩ := h param hmem
      cases haccepts with
      | ignoreMalformed htakes flag => exact htakes
      | fields | normalizer | ignoreAbove | metadata | inert => cases hparam
  metadata value hvalue := by
    obtain ⟨param, hmem, hparam⟩ := exists_of_findSome?_eq_some hvalue
    obtain ⟨key, value', haccepts⟩ := h param hmem
    cases haccepts with
    | metadata hobject =>
      cases hparam
      exact hobject
    | fields | normalizer | ignoreAbove | ignoreMalformed | inert => cases hparam

end Parsed

mutual

theorem readable_of_fromJson {P : Platform} {path : String} {topLevel : Bool} :
    ∀ {value : Value} {field : FieldDef}, fromJson P path topLevel value = .ok field → Readable field
  | .object members, field, h => by
    obtain ⟨ty, -, h⟩ := of_bind h
    obtain ⟨parsed, hparsed, h⟩ := of_bind h
    obtain ⟨params, hparams, h⟩ := of_bind h
    cases h
    rw [readable_iff]
    refine ⟨consistent_ofParams hparsed fun param => accepts_of_mem hparams, ?_⟩
    cases hfound : params.findSome? Param.fields? with
    | none => simp [ofParams, hfound, ReadableSubs]
    | some subs =>
      rw [ofParams, hfound]
      exact readableSubs_of_readParams hparams hfound
  | .null, field, h | .bool _, field, h | .number _, field, h | .string _, field, h
  | .array _, field, h => by
    grind [fromJson]

theorem readableSubs_of_readParams {P : Platform} {path ty : String} {parsed : FieldType} :
    ∀ {members : List (String × Value)} {params : List Param} {subs : List (String × FieldDef)},
      readParams P path ty parsed members = .ok params → params.findSome? Param.fields? = some subs →
      ReadableSubs subs
  | [], params, subs, h, hfound => by
    cases h
    cases hfound
  | (key, value) :: members, params, subs, h, hfound => by
    obtain ⟨param, hparam, h⟩ := of_bind h
    obtain ⟨rest, hrest, h⟩ := of_bind h
    cases h
    rw [findSome?_cons] at hfound
    split at hfound
    · next hsubs =>
        cases hfound
        exact readableSubs_of_readParam hparam hsubs
    · exact readableSubs_of_readParams hrest hfound

theorem readableSubs_of_readParam {P : Platform} {path ty : String} {parsed : FieldType}
    {key : String} : ∀ {value : Value} {param : Param} {subs : List (String × FieldDef)},
      readParam P path ty parsed key value = .ok param → param.fields? = some subs → ReadableSubs subs
  | .object members, param, subs, h, hsubs => by
    cases accepts_of_readParam h with
    | fields hread =>
      cases hsubs
      exact readableSubs_of_readSubs hread
    | metadata | inert => cases hsubs
  | .null, param, subs, h, hsubs | .bool _, param, subs, h, hsubs | .number _, param, subs, h, hsubs
  | .string _, param, subs, h, hsubs | .array _, param, subs, h, hsubs => by
    cases accepts_of_readParam h <;> cases hsubs

theorem readableSubs_of_readSubs {P : Platform} {path : String} :
    ∀ {members : List (String × Value)} {subs : List (String × FieldDef)},
      readSubs P path members = .ok subs → ReadableSubs subs
  | [], subs, h => by
    cases h
    trivial
  | (name, value) :: members, subs, h => by
    rw [readSubs] at h
    split_ifs at h with hname
    obtain ⟨sub, hsub, h⟩ := of_bind h
    obtain ⟨rest, hrest, h⟩ := of_bind h
    cases h
    exact ⟨hname, readable_of_fromJson hsub, readableSubs_of_readSubs hrest⟩

end

/-! ### Reading a rendered declaration -/

variable {key : String} {member : String × Value}

theorem mem_insert {value : Value} {members : Members} (h : member ∈ members.insert key value) :
    member = (key, value) ∨ member ∈ members := by
  induction members with
  | nil => exact .inl (mem_singleton.mp h)
  | cons head members ih =>
    unfold Members.insert at h
    grind

theorem mem_insertSome {value : Option Value} {members : Members}
    (h : member ∈ insertSome key value members) :
    (∃ v ∈ value, member = (key, v)) ∨ member ∈ members := by
  cases value with
  | none => exact .inr h
  | some value => exact (mem_insert h).imp_left fun heq => ⟨value, rfl, heq⟩

def FieldDef.members (field : FieldDef) : Members :=
  insertSome "fields" (if field.fields.isEmpty then none else some (.object (subsToJson field.fields)))
    (insertSome "meta" field.metadata
      (insertSome "ignore_malformed" (if field.ignoreMalformed then some (.bool true) else none)
        (insertSome "ignore_above" (field.ignoreAbove.map fun n => .number (.posInt n))
          (insertSome "normalizer" (field.normalizer.map .string) [("type", .string field.declared)]))))

theorem toJson_eq (field : FieldDef) : field.toJson = .object field.members := by
  cases field
  rw [toJson, members]

section Rendered

variable (field : FieldDef)

theorem get_type_members : field.members.get "type" = some (.string field.declared) := by
  simp [members, get_insertSome, Members.get_cons]

theorem get_normalizer_members : field.members.get "normalizer" = field.normalizer.map .string := by
  simp [members, get_insertSome, Members.get_cons]

theorem get_ignoreAbove_members : field.members.get "ignore_above" =
    field.ignoreAbove.map fun n => .number (.posInt n) := by
  simp [members, get_insertSome, Members.get_cons]

theorem get_ignoreMalformed_members : field.members.get "ignore_malformed" =
    if field.ignoreMalformed then some (.bool true) else none := by
  simp [members, get_insertSome, Members.get_cons]

theorem get_meta_members : field.members.get "meta" = field.metadata := by
  simp [members, get_insertSome, Members.get_cons]

theorem get_fields_members : field.members.get "fields" =
    if field.fields.isEmpty then none else some (.object (subsToJson field.fields)) := by
  rw [← get_fields_toJson, toJson_eq, Value.get]

end Rendered

section ReadBack

variable {P : Platform} {path : String} {field : FieldDef}

theorem exists_readParam_members (hfield : field.Consistent)
    (hsubs : readSubs P path (subsToJson field.fields) = .ok field.fields) {member : String × Value}
    (hmem : member ∈ field.members) :
    ∃ param, readParam P path field.declared field.ty member.1 member.2 = .ok param := by
  rcases mem_insertSome hmem with ⟨v, hv, rfl⟩ | hmem
  · split_ifs at hv
    · cases hv
    · cases hv
      exact ⟨_, readParam_of_accepts (.fields hsubs) nofun⟩
  rcases mem_insertSome hmem with ⟨v, hv, rfl⟩ | hmem
  · exact ⟨_, readParam_of_accepts (.metadata (hfield.metadata v hv)) nofun⟩
  rcases mem_insertSome hmem with ⟨v, hv, rfl⟩ | hmem
  · split_ifs at hv with hflag
    · cases hv
      exact ⟨_, readParam_of_accepts (.ignoreMalformed (hfield.ignoreMalformed hflag) true) nofun⟩
    · cases hv
  rcases mem_insertSome hmem with ⟨v, hv, rfl⟩ | hmem
  · obtain ⟨limit, hlimit, rfl⟩ := map_eq_some_iff.mp hv
    have hty := hfield.ignoreAbove (isSome_iff_exists.mpr ⟨limit, hlimit⟩)
    exact ⟨_, readParam_of_accepts (.ignoreAbove hty limit) nofun⟩
  rcases mem_insertSome hmem with ⟨v, hv, rfl⟩ | hmem
  · obtain ⟨name, hname, rfl⟩ := map_eq_some_iff.mp hv
    have hty := hfield.normalizer (isSome_iff_exists.mpr ⟨name, hname⟩)
    exact ⟨_, readParam_of_accepts (.normalizer hty name) nofun⟩
  · rw [mem_singleton.mp hmem]
    exact ⟨.inert, rfl⟩

variable {params : List Param}
  (h : readParams P path field.declared field.ty field.members = .ok params)

include h

theorem normalizer_members (hfield : field.Consistent) :
    params.findSome? Param.normalizer? = field.normalizer := by
  refine findSome?_readParams "normalizer" ?_ ?_ ?_ h
  · intro key' value param hne haccepts
    cases haccepts with
    | normalizer => exact absurd rfl hne
    | fields | ignoreAbove | ignoreMalformed | metadata | inert => rfl
  · intro value hvalue
    rw [get_normalizer_members] at hvalue
    obtain ⟨name, hname, rfl⟩ := map_eq_some_iff.mp hvalue
    have hty := hfield.normalizer (isSome_iff_exists.mpr ⟨name, hname⟩)
    exact ⟨_, readParam_of_accepts (.normalizer hty name) nofun, hname.symm, by rw [hname]; rfl⟩
  · intro hnone
    rwa [get_normalizer_members, map_eq_none_iff] at hnone

theorem ignoreAbove_members (hfield : field.Consistent) :
    params.findSome? Param.ignoreAbove? = field.ignoreAbove := by
  refine findSome?_readParams "ignore_above" ?_ ?_ ?_ h
  · intro key' value param hne haccepts
    cases haccepts with
    | ignoreAbove => exact absurd rfl hne
    | fields | normalizer | ignoreMalformed | metadata | inert => rfl
  · intro value hvalue
    rw [get_ignoreAbove_members] at hvalue
    obtain ⟨limit, hlimit, rfl⟩ := map_eq_some_iff.mp hvalue
    have hty := hfield.ignoreAbove (isSome_iff_exists.mpr ⟨limit, hlimit⟩)
    exact ⟨_, readParam_of_accepts (.ignoreAbove hty limit) nofun, hlimit.symm, by rw [hlimit]; rfl⟩
  · intro hnone
    rwa [get_ignoreAbove_members, map_eq_none_iff] at hnone

theorem ignoreMalformed_members (hfield : field.Consistent) :
    params.findSome? Param.ignoreMalformed? = if field.ignoreMalformed then some true else none := by
  refine findSome?_readParams "ignore_malformed" ?_ ?_ ?_ h
  · intro key' value param hne haccepts
    cases haccepts with
    | ignoreMalformed => exact absurd rfl hne
    | fields | normalizer | ignoreAbove | metadata | inert => rfl
  · intro value hvalue
    rw [get_ignoreMalformed_members] at hvalue
    split_ifs at hvalue with hflag
    cases hvalue
    have htakes := hfield.ignoreMalformed hflag
    rw [if_pos hflag]
    exact ⟨_, readParam_of_accepts (.ignoreMalformed htakes true) nofun, rfl, rfl⟩
  · grind [get_ignoreMalformed_members]

theorem metadata_members (hfield : field.Consistent) :
    params.findSome? Param.metadata? = field.metadata := by
  refine findSome?_readParams "meta" ?_ ?_ ?_ h
  · intro key' value param hne haccepts
    cases haccepts with
    | metadata => exact absurd rfl hne
    | fields | normalizer | ignoreAbove | ignoreMalformed | inert => rfl
  · intro value hvalue
    rw [get_meta_members] at hvalue
    have hobject := hfield.metadata value hvalue
    exact ⟨_, readParam_of_accepts (.metadata hobject) nofun, hvalue.symm, by rw [hvalue]; rfl⟩
  · grind [get_meta_members]

theorem fields_members (hsubs : readSubs P path (subsToJson field.fields) = .ok field.fields) :
    params.findSome? Param.fields? = if field.fields.isEmpty then none else some field.fields := by
  refine findSome?_readParams "fields" ?_ ?_ ?_ h
  · intro key' value param hne haccepts
    cases haccepts with
    | fields => exact absurd rfl hne
    | normalizer | ignoreAbove | ignoreMalformed | metadata | inert => rfl
  · intro value hvalue
    rw [get_fields_members] at hvalue
    split_ifs at hvalue with hempty
    cases hvalue
    rw [if_neg hempty]
    exact ⟨_, readParam_of_accepts (.fields hsubs) nofun, rfl, rfl⟩
  · intro hnone
    rw [get_fields_members] at hnone
    split_ifs at hnone with hempty
    · rw [if_pos hempty]

theorem ofParams_members (hfield : field.Consistent)
    (hsubs : readSubs P path (subsToJson field.fields) = .ok field.fields) :
    ofParams field.ty field.declared params = field := by
  rw [ofParams, normalizer_members h hfield, ignoreAbove_members h hfield,
    ignoreMalformed_members h hfield, metadata_members h hfield, fields_members h hsubs]
  obtain ⟨ty, declared, normalizer, ignoreAbove, ignoreMalformed, metadata, fields⟩ := field
  cases ignoreMalformed <;> cases fields <;> rfl

end ReadBack

mutual

theorem fromJson_toJson (P : Platform) (path : String) (topLevel : Bool) :
    ∀ field : FieldDef, Readable field → fromJson P path topLevel field.toJson = .ok field
  | ⟨ty, declared, normalizer, ignoreAbove, ignoreMalformed, metadata, fields⟩, hreadable => by
    obtain ⟨hfield, hfields⟩ := (readable_iff _).mp hreadable
    have hsubs := readSubs_subsToJson P path fields hfields
    obtain ⟨params, hparams⟩ := exists_readParams fun member hmem =>
      exists_readParam_members hfield hsubs hmem
    have htype : typeName path topLevel (members ⟨ty, declared, normalizer, ignoreAbove,
        ignoreMalformed, metadata, fields⟩) = .ok declared := by
      rw [typeName, get_type_members]
      rfl
    rw [toJson_eq, fromJson, bind_eq_ok_iff]
    refine ⟨declared, htype, bind_eq_ok_iff.mpr ⟨ty, hfield.type, ?_⟩⟩
    exact bind_eq_ok_iff.mpr ⟨params, hparams, congrArg Except.ok (ofParams_members hparams hfield hsubs)⟩

theorem readSubs_subsToJson (P : Platform) (path : String) :
    ∀ subs : List (String × FieldDef), ReadableSubs subs → readSubs P path (subsToJson subs) = .ok subs
  | [], _ => rfl
  | (name, sub) :: subs, ⟨hname, hsub, hsubs⟩ => by
    rw [subsToJson, readSubs, if_neg hname, fromJson_toJson P _ false sub hsub,
      readSubs_subsToJson P path subs hsubs]
    rfl

end

/-! ### Reading a rendered mapping -/

theorem parse_asStr (filter : NormalizerFilter) :
    parse (asStr filter) = some filter := by
  cases filter <;> rfl

theorem readFilters (name : String) (filters : List NormalizerFilter) :
    (filters.map fun filter => Value.string (asStr filter)).mapM (readFilter name)
      = .ok filters := by
  induction filters with
  | nil => rfl
  | cons filter filters ih =>
    have hfirst : readFilter name (.string (asStr filter)) = .ok filter := by
      simp only [readFilter, Value.asStr, parse_asStr]
    rw [map_cons, mapM_cons, hfirst, ih]
    rfl

theorem parseNormalizer_toJson (name : String) (filters : List NormalizerFilter) :
    parseNormalizer name (normalizerToJson filters) = .ok filters :=
  readFilters name filters

theorem readNormalizers (normalizers : List (String × List NormalizerFilter)) :
    (normalizers.map fun (name, filters) => (name, normalizerToJson filters)).mapM
      (fun (name, value) => (parseNormalizer name value).map (name, ·)) =
        (.ok normalizers : Except MappingError _) := by
  induction normalizers with
  | nil => rfl
  | cons normalizer normalizers ih =>
    rw [map_cons, mapM_cons, ih]
    simp only [parseNormalizer_toJson]
    rfl

namespace IndexMapping

variable {P : Platform} {mapping : IndexMapping}

/-- A mapping whose declarations are readable, under names that are not reserved, and name normalizers
it has. -/
structure Storable (mapping : IndexMapping) : Prop where
  names : ∀ property ∈ mapping.properties, property.1.toList.head? ≠ some '_'
  fields : ∀ property ∈ mapping.properties, Readable property.2
  references : mapping.checkNormalizerReferences = .ok ()

theorem storable_of_readProperties {members : Members} {properties : List (String × FieldDef)}
    (h : members.mapM (readProperty P) = .ok properties) : ∀ property ∈ properties,
      property.1.toList.head? ≠ some '_' ∧ Readable property.2 := by
  induction members generalizing properties with
  | nil =>
    cases h
    grind
  | cons member members ih =>
    rw [mapM_cons] at h
    obtain ⟨first, hfirst, h⟩ := of_bind h
    obtain ⟨rest, hrest, h⟩ := of_bind h
    cases h
    refine forall_mem_cons.mpr ⟨?_, ih hrest⟩
    unfold readProperty at hfirst
    split_ifs at hfirst with hname
    obtain ⟨field, hfield, rfl⟩ := map_eq_ok_iff.mp hfirst
    exact ⟨hname, readable_of_fromJson hfield⟩

theorem storable_of_parse {normalizers : List (String × List NormalizerFilter)} {value : Value}
    (h : parse P normalizers value = .ok mapping) : mapping.Storable := by
  have hproperties := storable_of_readProperties (properties_of_parse h)
  refine ⟨fun property hmem => (hproperties property hmem).1,
    fun property hmem => (hproperties property hmem).2, ?_⟩
  unfold parse at h
  split at h
  · cases h
    rfl
  · split at h
    · cases h
    · obtain ⟨properties, -, h⟩ := of_bind h
      obtain ⟨⟨⟩, hchecked, h⟩ := of_bind h
      cases h
      exact hchecked

theorem readProperties_subsToJson (properties : List (String × FieldDef))
    (hnames : ∀ property ∈ properties, property.1.toList.head? ≠ some '_')
    (hfields : ∀ property ∈ properties, Readable property.2) :
    (subsToJson properties).mapM (readProperty P) = .ok properties := by
  induction properties with
  | nil => rfl
  | cons property properties ih =>
    obtain ⟨hname, hnames⟩ := forall_mem_cons.mp hnames
    obtain ⟨hfield, hfields⟩ := forall_mem_cons.mp hfields
    rw [subsToJson, mapM_cons, readProperty, if_neg hname,
      fromJson_toJson P _ true _ hfield, ih hnames hfields]
    rfl

theorem get_properties_toJson (mapping : IndexMapping) :
    mapping.toJson.get "properties" = some (.object (subsToJson mapping.properties)) := by
  simp [toJson, Value.get, get_insertSome, Members.get_cons]

theorem get_normalizers_toJson (mapping : IndexMapping) : mapping.toJson.get "_normalizers" =
    if mapping.normalizers.isEmpty then none
    else some (.object (mapping.normalizers.map fun (name, filters) =>
      (name, normalizerToJson filters))) := by
  simp [toJson, Value.get, get_insertSome, Members.get_cons]

theorem parse_toJson (h : mapping.Storable) :
    parse P mapping.normalizers mapping.toJson = .ok mapping := by
  have hproperties := readProperties_subsToJson (P := P) mapping.properties h.names h.fields
  rw [parse, get_properties_toJson]
  refine bind_eq_ok_iff.mpr ⟨mapping.properties, hproperties, ?_⟩
  exact bind_eq_ok_iff.mpr ⟨(), h.references, rfl⟩

theorem fromJson_toJson (h : mapping.Storable) : fromJson P mapping.toJson = .ok mapping := by
  rw [fromJson, get_normalizers_toJson]
  cases hnormalizers : mapping.normalizers with
  | nil =>
    grind [parse_toJson]
  | cons normalizer normalizers =>
    rw [← hnormalizers, hnormalizers, if_neg (by simp), ← hnormalizers]
    exact bind_eq_ok_iff.mpr ⟨_, readNormalizers mapping.normalizers, parse_toJson h⟩

inductive Produced (P : Platform) : IndexMapping → Prop
  | fromRequest {mapping : IndexMapping} (mappings : Value) (settings : Option Value)
      (h : fromRequest P mappings settings = .ok mapping) : Produced P mapping
  | fromMappingUpdate {mapping : IndexMapping} (mappings : Value) (existing : IndexMapping)
      (h : fromMappingUpdate P mappings existing = .ok mapping) : Produced P mapping
  | fromJson {mapping : IndexMapping} (stored : Value)
      (h : fromJson P stored = .ok mapping) : Produced P mapping

theorem storable_of_produced (h : Produced P mapping) : mapping.Storable := by
  cases h with
  | fromRequest mappings settings h =>
    unfold IndexMapping.fromRequest at h
    split at h
    · exact storable_of_parse h
    · split at h
      · cases h
      · obtain ⟨normalizers, -, h⟩ := of_bind h
        exact storable_of_parse h
  | fromMappingUpdate mappings existing h => exact storable_of_parse h
  | fromJson stored h =>
    unfold IndexMapping.fromJson at h
    split at h
    · exact storable_of_parse h
    · split at h
      · cases h
      · obtain ⟨normalizers, -, h⟩ := of_bind h
        exact storable_of_parse h

/-- **Every mapping a parser produced is read back from its rendering**, with its paths in their order,
their types, limits and flags, and its normalizer chains; so a split's reader rebuilds, in every layout
version, the schema its writer used. -/
theorem stored_mapping_reads_back (P : Platform) (mapping : IndexMapping) (h : Produced P mapping) :
    fromJson P mapping.toJson = .ok mapping ∧
      ∀ version, readerSchema P mapping.toJson version = mapping.buildVersioned version := by
  grind [storable_of_produced, fromJson_toJson, readerSchema, existingOf]

/-! ### A text field with a normalized keyword below it -/

def titleRequest : Value :=
  .object [("properties", .object [("title", .object [
    ("fields", .object [("raw", .object [
      ("fields", .object [("n", .object [("ignore_malformed", .bool true), ("type", .string "integer")])]),
      ("ignore_above", .number (.posInt 256)), ("index", .bool true),
      ("normalizer", .string "lower"), ("type", .string "keyword")])]),
    ("meta", .object [("unit", .string "words")]), ("type", .string "text")])])]

def lowerSettings : Value :=
  .object [("index", .object [("analysis", .object [("normalizer", .object [
    ("lower", .object [("filter", .array [.string "lowercase", .string "asciifolding"])])])])])]

def titleMapping : IndexMapping where
  properties := [("title", {
    ty := .text, declared := "text", metadata := some (.object [("unit", .string "words")]),
    fields := [("raw", {
      ty := .keyword, declared := "keyword", normalizer := some "lower", ignoreAbove := some 256,
      fields := [("n", { ty := .long, declared := "integer", ignoreMalformed := true })] })] })]
  normalizers := [("lower", [.lowercase, .asciiFolding])]

theorem stored_mapping_reads_back_title :
    fromRequest plainPlatform titleRequest (some lowerSettings) = .ok titleMapping ∧
      titleMapping.paths.map Prod.fst = ["title", "title.raw", "title.raw.n"] ∧
      fromJson plainPlatform titleMapping.toJson = .ok titleMapping :=
  ⟨rfl, rfl, (stored_mapping_reads_back plainPlatform titleMapping
    (.fromRequest titleRequest (some lowerSettings) rfl)).1⟩

end IndexMapping

end RSearch.Mapping
