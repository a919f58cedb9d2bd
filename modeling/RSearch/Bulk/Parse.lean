import RSearch.Index.Document

/-!
# Bulk bodies, routing rules and partial updates

The parts of a bulk request that need only its text: the split of a body into actions, the streams a
document is routed to, and the document an update makes of the current one.
-/

namespace RSearch.Bulk

open Json (Value Members)
open Index (Platform)

/-! ### Actions and items -/

inductive BulkAction where
  | index
  | create
  | update
  | delete
  deriving DecidableEq

namespace BulkAction

def asStr : BulkAction → String
  | .index => "index"
  | .create => "create"
  | .update => "update"
  | .delete => "delete"

def hasDocLine : BulkAction → Bool
  | .delete => false
  | _ => true

def parse (name : String) : Option BulkAction :=
  if name = "index" then some .index
  else if name = "create" then some .create
  else if name = "update" then some .update
  else if name = "delete" then some .delete
  else none

end BulkAction

structure BulkItem where
  action : BulkAction
  stream : String
  docId : String
  /-- Whether the client supplied the id. -/
  explicitId : Bool
  doc : Value
  /-- The client's own line, stored as it came. -/
  raw : String

structure Rejection where
  action : String
  index : String
  reason : String

inductive Entry where
  | item (item : BulkItem)
  | rejected (rejection : Rejection)

structure BulkParseOutcome where
  items : List (Nat × BulkItem)
  rejections : List (Nat × Rejection)
  /-- The number of actions seen. -/
  total : Nat

def BulkParseOutcome.add (position : Nat) : Entry → BulkParseOutcome → BulkParseOutcome
  | .item item, o => { o with items := (position, item) :: o.items }
  | .rejected r, o => { o with rejections := (position, r) :: o.rejections }

/-! ### Lines -/

def isWhitespace (c : Char) : Bool :=
  let n := c.toNat
  decide ((9 ≤ n ∧ n ≤ 13) ∨ n = 32 ∨ n = 0x85 ∨ n = 0xa0 ∨ n = 0x1680 ∨
    (0x2000 ≤ n ∧ n ≤ 0x200a) ∨ n = 0x2028 ∨ n = 0x2029 ∨ n = 0x202f ∨ n = 0x205f ∨ n = 0x3000)

def trimEnd (cs : List Char) : List Char := cs.rdropWhile isWhitespace

def bodyLines (body : String) : List String :=
  ((body.toList.splitOn '\n').map trimEnd).filterMap fun cs =>
    if cs = [] then none else some (String.ofList cs)

structure Reader where
  fromStr : String → Except String Value
  newUuid : Nat → String

structure ActionLine where
  action : BulkAction
  name : String
  index : String
  docId : String
  explicitId : Bool

def targetIndex (metadata : Value) (defaultIndex : Option String) : String :=
  (((metadata.get "_index").bind Value.asStr).or defaultIndex).getD ""

def explicitId (P : Platform) (metadata : Value) : Option String :=
  match metadata.get "_id" with
  | some (.string s) => some s
  | some (.number n) => some (P.toString (.number n))
  | _ => none

def parseAction (P : Platform) (R : Reader) (defaultIndex : Option String) (line : String)
    (position : Nat) : Except String ActionLine :=
  match R.fromStr line with
  | .error e =>
    .error ("action line " ++ toString (position + 1) ++ " is not valid JSON: " ++ e)
  | .ok (.object ((name, metadata) :: _)) =>
    match BulkAction.parse name with
    | some action =>
      let id := explicitId P metadata
      .ok ⟨action, name, targetIndex metadata defaultIndex, id.getD (R.newUuid position), id.isSome⟩
    | none =>
      .error ("unknown bulk action '" ++ name ++ "' at action " ++ toString (position + 1))
  | .ok (.object []) => .error ("action line " ++ toString (position + 1) ++ " is empty")
  | .ok _ => .error ("action line " ++ toString (position + 1) ++ " must be an object")

def deleteEntry (a : ActionLine) : Entry :=
  if a.index = "" then .rejected ⟨a.name, a.index, "no index specified in action or URL"⟩
  else if ¬a.explicitId then .rejected ⟨a.name, a.index, a.name ++ " requires an _id"⟩
  else .item ⟨a.action, a.index, a.docId, a.explicitId, .null, ""⟩

def docEntry (R : Reader) (a : ActionLine) (docLine : String) : Entry :=
  match R.fromStr docLine with
  | .ok (.object members) =>
    if a.index = "" then .rejected ⟨a.name, a.index, "no index specified in action or URL"⟩
    else if a.action = .update ∧ ¬a.explicitId then
      .rejected ⟨a.name, a.index, "update requires an _id"⟩
    else .item ⟨a.action, a.index, a.docId, a.explicitId, .object members, docLine⟩
  | .ok _ => .rejected ⟨a.name, a.index, "document must be a JSON object"⟩
  | .error e => .rejected ⟨a.name, a.index, "document is not valid JSON: " ++ e⟩

def parseLines (P : Platform) (R : Reader) (defaultIndex : Option String) :
    List String → Nat → Except String BulkParseOutcome
  | [], position => .ok ⟨[], [], position⟩
  | actionLine :: rest, position =>
    match parseAction P R defaultIndex actionLine position with
    | .error e => .error e
    | .ok a =>
      if ¬a.action.hasDocLine then
        (parseLines P R defaultIndex rest (position + 1)).map (.add position (deleteEntry a))
      else
        match rest with
        | [] =>
          .ok ⟨[], [(position, ⟨a.name, a.index, "missing document line"⟩)], position + 1⟩
        | docLine :: rest =>
          (parseLines P R defaultIndex rest (position + 1)).map (.add position (docEntry R a docLine))

def parseBulkBody (P : Platform) (R : Reader) (body : String) (defaultIndex : Option String) :
    Except String BulkParseOutcome :=
  parseLines P R defaultIndex (bodyLines body) 0

/-! ### Routing -/

inductive RuleOp where
  | eq
  | contains
  | exists
  | other (name : String)
  deriving DecidableEq

/-- A routing rule: a condition on a top-level field, and where a matching document goes. -/
structure RoutingRule where
  field : String
  op : RuleOp
  value : String
  targetStream : String
  copy : Bool
  deriving DecidableEq

def RoutingRule.matches (P : Platform) (rule : RoutingRule) (doc : Value) : Bool :=
  match rule.op, doc.get rule.field with
  | _, none => false
  | .exists, some _ => true
  | .eq, some v =>
    match v.asStr with
    | some s => s == rule.value
    | none => P.toString v == rule.value
  | .contains, some v => v.asStr.any fun s => decide (rule.value.toList <:+: s.toList)
  | .other _, some _ => false

/-- Where a document goes: the named stream or the last matching rule's target instead of it, and
the targets of the matching copy rules, each once. -/
def expandRoutes (P : Platform) (rules : List RoutingRule) (stream : String) (doc : Value) :
    List String :=
  let matched := rules.filter (·.matches P doc)
  let primary := ((matched.filter (!·.copy)).getLast?.map (·.targetStream)).getD stream
  let extra := (matched.filter (·.copy)).map (·.targetStream)
  extra.foldl (fun routes s => if s ∈ routes then routes else routes ++ [s]) [primary]

/-! ### Partial updates -/

mutual

def mergeJson (target : Value) : Value → Value
  | .object patch =>
    match target with
    | .object ms => .object (mergeMembers ms patch)
    | _ => .object patch
  | patch => patch

def mergeMembers (target : Members) : List (String × Value) → Members
  | [] => target
  | (key, value) :: patch =>
    mergeMembers
      (match Members.get target key with
        | some existing =>
          if existing.isObject ∧ value.isObject then
            Members.insert key (mergeJson existing value) target
          else Members.insert key value target
        | none => Members.insert key value target)
      patch

end

/-- The document an update makes of the current one, and whether it is new; nothing when there is
none and the body gives no substitute. -/
def applyUpdate (body : Value) (current : Option Value) : Except String (Option (Value × Bool)) :=
  if (body.get "script").isSome then .error "scripted updates are not supported"
  else
    match body.get "doc" with
    | none => .error "update body requires 'doc'"
    | some partialDoc =>
      if ¬partialDoc.isObject then .error "'doc' must be an object"
      else
        match current with
        | some current => .ok (some (mergeJson current partialDoc, false))
        | none =>
          if ((body.get "doc_as_upsert").bind Value.asBool).getD false then
            .ok (some (partialDoc, true))
          else
            match body.get "upsert" with
            | some upsert =>
              if upsert.isObject then .ok (some (upsert, true))
              else .error "'upsert' must be an object"
            | none => .ok none

/-! ### Where items come from -/

variable {position : Nat} {o : BulkParseOutcome} {P : Platform} {R : Reader}
  {defaultIndex : Option String} {key : String} {value doc : Value}

theorem mem_items_add {entry : Entry} {p : Nat × BulkItem} (h : p ∈ (o.add position entry).items) :
    entry = .item p.2 ∨ p ∈ o.items := by
  cases entry with
  | item item =>
    rcases List.mem_cons.mp h with rfl | h
    · exact .inl rfl
    · exact .inr h
  | rejected r => exact .inr h

theorem forall_items_of_parseLines {Q : BulkItem → Prop} {lines : List String}
    (hdelete : ∀ a item, a.action.hasDocLine = false → deleteEntry a = .item item → Q item)
    (hdoc : ∀ a docLine item, docEntry R a docLine = .item item → Q item)
    (h : parseLines P R defaultIndex lines position = .ok o) : ∀ p ∈ o.items, Q p.2 := by
  fun_induction parseLines P R defaultIndex lines position generalizing o with
  | case1 position | case4 =>
    cases h
    simp
  | case2 => cases h
  | case3 line rest position a _ haction ih =>
    obtain ⟨rest, hrest, rfl⟩ := Except.map_eq_ok_iff.mp h
    intro p hp
    rcases mem_items_add hp with hentry | hp
    · exact hdelete a p.2 (by simpa using haction) hentry
    · exact ih hrest p hp
  | case5 line position a _ haction docLine rest ih =>
    obtain ⟨rest, hrest, rfl⟩ := Except.map_eq_ok_iff.mp h
    intro p hp
    rcases mem_items_add hp with hentry | hp
    · exact hdoc a docLine p.2 hentry
    · exact ih hrest p hp

def Reader.ReadsObject (R : Reader) (text : String) : Prop :=
  ∃ members, R.fromStr text = .ok (.object members)

theorem fromStr_raw_of_mem_items {body : String} (h : parseBulkBody P R body defaultIndex = .ok o) :
    ∀ p ∈ o.items, p.2.action ≠ .delete →
      R.fromStr p.2.raw = .ok p.2.doc ∧ p.2.doc.isObject = true := by
  refine forall_items_of_parseLines (Q := fun item => item.action ≠ .delete →
    R.fromStr item.raw = .ok item.doc ∧ item.doc.isObject = true) ?_ ?_ h
  · intro a item hno hentry hne
    unfold deleteEntry at hentry
    split at hentry
    · cases hentry
    · split at hentry
      · cases hentry
      · cases hentry
        exact absurd hno (by cases ha : a.action <;> simp_all [BulkAction.hasDocLine])
  · intro a docLine item hentry _
    unfold docEntry at hentry
    split at hentry
    case h_1 members hread =>
      split at hentry
      · cases hentry
      · split at hentry
        · cases hentry
        · cases hentry
          exact ⟨hread, rfl⟩
    all_goals cases hentry

/-! ### How deep an update nests -/

open Json.Value (depth listDepth membersDepth)

theorem membersDepth_insert_le (key : String) (value : Value) (ms : Members) :
    membersDepth (Members.insert key value ms) ≤ max (depth value) (membersDepth ms) := by
  induction ms with
  | nil => simp [Members.insert, membersDepth]
  | cons m ms ih =>
    unfold Members.insert
    split
    · simp only [membersDepth]
      omega
    · split
      · simp only [membersDepth]
        omega
      · simp only [membersDepth] at ih ⊢
        omega

theorem depth_le_of_get {ms : Members} (h : Members.get ms key = some value) :
    depth value ≤ membersDepth ms := by
  induction ms with
  | nil => cases h
  | cons m ms ih =>
    unfold Members.get at h ih
    rw [List.lookup_cons] at h
    split at h
    · cases h
      exact le_max_left _ _
    · exact (ih h).trans (le_max_right _ _)

mutual

theorem depth_mergeJson_le (target : Value) :
    ∀ patch : Value, depth (mergeJson target patch) ≤ max (depth target) (depth patch)
  | .object patch => by
    cases target with
    | object ms =>
      have h := membersDepth_mergeMembers_le ms patch
      simp only [mergeJson, depth]
      omega
    | _ => simp [mergeJson]
  | .null | .bool _ | .number _ | .string _ | .array _ => by simp [mergeJson]

theorem membersDepth_mergeMembers_le (target : Members) :
    ∀ patch : List (String × Value),
      membersDepth (mergeMembers target patch) ≤ max (membersDepth target) (membersDepth patch)
  | [] => by simp [mergeMembers]
  | (key, value) :: patch => by
    have hmerge := fun existing => depth_mergeJson_le existing value
    have hplain := membersDepth_insert_le key value target
    refine (membersDepth_mergeMembers_le _ patch).trans ?_
    simp only [membersDepth]
    split
    case h_1 existing hget =>
      have hexisting := depth_le_of_get hget
      have hinner := hmerge existing
      have hinsert := membersDepth_insert_le key (mergeJson existing value) target
      split <;> omega
    case h_2 => omega

end

theorem isObject_mergeJson (target : Value) {patch : Value} (h : patch.isObject = true) :
    (mergeJson target patch).isObject = true := by
  cases patch with
  | object patch => cases target <;> rfl
  | _ => cases h

theorem depth_lt_of_get (h : doc.get key = some value) : depth value < depth doc := by
  cases doc with
  | object ms =>
    have hle := depth_le_of_get h
    simp only [depth]
    omega
  | _ => cases h

theorem applyUpdate_eq_some {body : Value} {current : Option Value} {upsert : Bool}
    (h : applyUpdate body current = .ok (some (doc, upsert))) :
    doc.isObject = true ∧
      (depth doc ≤ depth body ∨ ∃ c, current = some c ∧ depth doc ≤ max (depth c) (depth body)) := by
  unfold applyUpdate at h
  split at h
  · cases h
  · split at h
    · cases h
    case h_2 partialDoc hdoc =>
      have hlt := depth_lt_of_get hdoc
      split at h
      · cases h
      case isFalse hobj =>
        have hobj : partialDoc.isObject = true := by simpa using hobj
        split at h
        case h_1 c =>
          cases h
          have hmerge := depth_mergeJson_le c partialDoc
          exact ⟨isObject_mergeJson c hobj, .inr ⟨c, rfl, by omega⟩⟩
        case h_2 =>
          split at h
          · cases h
            exact ⟨hobj, .inl hlt.le⟩
          · split at h
            case h_1 other hupsert =>
              split at h
              case isTrue hother =>
                cases h
                exact ⟨hother, .inl (depth_lt_of_get hupsert).le⟩
              · cases h
            · cases h

end RSearch.Bulk
