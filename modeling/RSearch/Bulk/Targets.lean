import RSearch.Bulk.Build
import RSearch.Bulk.Stamp
import RSearch.Auth.Scope

/-!
# The streams a write request reaches

The middleware lets an ingest request through because its path names a stream in scope.  What it
writes is decided by its body: an action line's own `_index` replaces the path's.  The document
routes decode the segment that the middleware has looked at raw.
-/

namespace RSearch.Bulk

open List Option Except Session

open Json (Value Members)
open Index (Platform MappedSchema)
open Auth (Identity)

/-! ### Requests and their bulk bodies -/

structure Request where
  method : String
  /-- The path as it was sent. -/
  path : String
  /-- The query parameter `op_type`. -/
  opType : Option String
  body : String

inductive WriteRoute where
  | bulkRoot
  | bulkIndex (index : String)
  | postDoc (index : String)
  | putDoc (index id : String)
  | createDoc (index id : String)
  | updateDoc (index id : String)
  | deleteDoc (index id : String)
  | deleteByQuery (index : String)
  deriving DecidableEq

open WriteRoute

/-- The write handler of a method and path.  Parameters are never empty, and `decode` undoes their
percent encoding. -/
def writeRoute (decode : String → Option String) (method path : String) : Option WriteRoute :=
  let param (s : String) : Option String := if s = "" then none else decode s
  match path.toList with
  | '/' :: rest =>
    match (rest.splitOn '/').map String.ofList with
    | [a] => if method = "POST" ∧ a = "_bulk" then some .bulkRoot else none
    | [i, a] =>
      if method ≠ "POST" then none
      else if a = "_bulk" then (param i).map .bulkIndex
      else if a = "_doc" then (param i).map .postDoc
      else if a = "_delete_by_query" then (param i).map .deleteByQuery
      else none
    | [i, a, d] => do
      let index ← param i
      let id ← param d
      if a = "_doc" ∧ (method = "PUT" ∨ method = "POST") then some (.putDoc index id)
      else if a = "_doc" ∧ method = "DELETE" then some (.deleteDoc index id)
      else if a = "_create" ∧ (method = "PUT" ∨ method = "POST") then some (.createDoc index id)
      else if a = "_update" ∧ method = "POST" then some (.updateDoc index id)
      else none
    | _ => none
  | _ => none

structure Call where
  defaultIndex : Option String
  body : String

def actionValue (action index : String) (id : Option String) : Value :=
  .object [(action, .object ((id.map fun id => ("_id", Value.string id)).toList ++
    [("_index", .string index)]))]

def oneItemBody (P : Platform) (action index : String) (id : Option String) (doc : Option Value) :
    String :=
  P.toString (actionValue action index id) ++ "\n" ++
    (doc.map fun doc => P.toString doc ++ "\n").getD ""

def docCalls (P : Platform) (R : Reader) (action index : String) (id : Option String)
    (body : String) : List Call :=
  match R.fromStr body with
  | .ok (.object members) => [⟨none, oneItemBody P action index id (some (.object members))⟩]
  | _ => []

/-- The largest number of documents one round of a delete by query removes, and of its rounds. -/
def deleteByQueryPage : Nat := 10000

def deleteByQueryMaxRounds : Nat := 10000

/-- What a delete by query sees of each round: the ids its search finds, and whether every delete
of the round succeeded. -/
structure Rounds where
  found : Nat → Option (List String)
  succeeded : Nat → Bool

/-- The rounds of a delete by query, up to a fixed number: one body of deletes for each, until a
search is dry, finds only what the round before has found, or comes back short. -/
def deleteRounds (P : Platform) (index : String) (rounds : Rounds) :
    Nat → Nat → List String → List Call
  | 0, _, _ => []
  | left + 1, round, previous =>
    match rounds.found round with
    | none => []
    | some ids =>
      if ids = [] ∨ ids.all (· ∈ previous) then []
      else
        ⟨none, String.join (ids.map fun id => oneItemBody P "delete" index (some id) none)⟩ ::
          if ¬rounds.succeeded round ∨ ids.length < deleteByQueryPage then []
          else deleteRounds P index rounds left (round + 1) ids

def calls (P : Platform) (R : Reader) (rounds : Rounds) (req : Request) : WriteRoute → List Call
  | .bulkRoot => [⟨none, req.body⟩]
  | .bulkIndex index => [⟨some index, req.body⟩]
  | .postDoc index => docCalls P R "index" index none req.body
  | .putDoc index id =>
    match req.opType with
    | some "create" => docCalls P R "create" index (some id) req.body
    | some "index" | none => docCalls P R "index" index (some id) req.body
    | some _ => []
  | .createDoc index id => docCalls P R "create" index (some id) req.body
  | .updateDoc index id => docCalls P R "update" index (some id) req.body
  | .deleteDoc index id => [⟨none, oneItemBody P "delete" index (some id) none⟩]
  | .deleteByQuery index => deleteRounds P index rounds deleteByQueryMaxRounds 0 []

/-! ### What a bulk body writes -/

/-- Everything a prepared request carries out, whatever it answers: the tombstones of its deletes
once they are stored, and its copies once they are in the log. -/
def effects (env : Env) (p : Prepared) : List Accepted :=
  match resolveRoutes env (p.planned.flatMap (·.routes)) p.session with
  | .error _ => []
  | .ok s =>
    match writeDeletes env (deletes s p.planned) with
    | .error _ => []
    | .ok () =>
      deletes s p.planned ++
        match appendCopies env p.planned with
        | .error _ => []
        | .ok () => acceptedCopies env p.planned

def directTarget (p : Prepared) (a : Accepted) : Option String :=
  p.planned[a.item]?.map (·.item.stream)

/-- **Everything a bulk body writes directly is in the identity's scope**, on whatever node and in
whatever state it runs. -/
def CallSafe (P : Platform) (R : Reader) (id : Identity) (call : Call) : Prop :=
  ∀ env p, env.P = P → env.R = R → prepare env call.defaultIndex call.body = .ok p →
    ∀ a ∈ effects env p, ∀ stream, directTarget p a = some stream → id.allowsStream stream = true

/-- **A write request that is let through for a stream of its path stays in scope.** -/
def ScopeSafe (P : Platform) (R : Reader) (decode : String → Option String) (id : Identity)
    (req : Request) : Prop :=
  ∀ stream, Auth.classify req.method req.path = .ingest (some stream) →
    Auth.require true (.as id) req.method req.path = .pass →
    ∀ route, writeRoute decode req.method req.path = some route →
      ∀ rounds, ∀ call ∈ calls P R rounds req route, CallSafe P R id call

/-! ### The actions of a body -/

def UpdateOk (body : Value) : Prop :=
  body.get "script" = none ∧ ∃ doc, body.get "doc" = some doc ∧ doc.isObject = true

structure BodyAction where
  name : String
  metadata : Value
  docLine : Option String

def bodyActions (R : Reader) : List String → List BodyAction
  | [] => []
  | line :: rest =>
    match R.fromStr line with
    | .ok (.object ((name, metadata) :: _)) =>
      if name = "delete" then ⟨name, metadata, none⟩ :: bodyActions R rest
      else
        match rest with
        | [] => []
        | docLine :: rest => ⟨name, metadata, some docLine⟩ :: bodyActions R rest
    | _ => []

/-- **An action that can write**: it has a target, an id where it needs one, and a document line
that reads as an object and, for an update, can be applied. -/
def BodyAction.Writes (P : Platform) (R : Reader) (defaultIndex : Option String)
    (a : BodyAction) : Prop :=
  targetIndex a.metadata defaultIndex ≠ "" ∧
    match a.docLine with
    | none => (explicitId P a.metadata).isSome = true
    | some docLine => ∃ doc, R.fromStr docLine = .ok doc ∧ doc.isObject = true ∧
        (a.name = "update" → (explicitId P a.metadata).isSome = true ∧ UpdateOk doc)

/-- **Each action of a body that can write names a stream in scope.** -/
def BodyInScope (P : Platform) (R : Reader) (id : Identity) (defaultIndex : Option String)
    (body : String) : Prop :=
  (∃ outcome, parseBulkBody P R body defaultIndex = .ok outcome) →
    ∀ a ∈ bodyActions R (bodyLines body), a.Writes P R defaultIndex →
      id.allowsStream (targetIndex a.metadata defaultIndex) = true

def CanWrite (item : BulkItem) : Prop := item.action = .update → UpdateOk item.doc

section Items

variable {P : Platform} {R : Reader} {defaultIndex : Option String}

variable {line docLine : String} {position : Nat} {a : ActionLine} {item : BulkItem}
  {o : BulkParseOutcome} {rest lines : List String}

theorem exists_of_parseAction (h : parseAction P R defaultIndex line position = .ok a) :
    ∃ metadata rest, R.fromStr line = .ok (.object ((a.name, metadata) :: rest)) ∧
      BulkAction.parse a.name = some a.action ∧ a.index = targetIndex metadata defaultIndex ∧
      a.explicitId = (explicitId P metadata).isSome := by
  unfold parseAction at h
  split at h
  · cases h
  case h_2 name metadata rest hread =>
    grind
  all_goals cases h

theorem hasDocLine_of_parse {name : String} {action : BulkAction} (h : BulkAction.parse name = some action) :
    (action.hasDocLine = true ↔ name ≠ "delete") ∧ (action = .update ↔ name = "update") := by
  grind [BulkAction.hasDocLine, BulkAction.parse]

theorem deleteEntry_eq_item_iff :
    deleteEntry a = .item item ↔ a.index ≠ "" ∧ a.explicitId = true ∧
      ⟨a.action, a.index, a.docId, a.explicitId, .null, ""⟩ = item := by
  grind [deleteEntry]

theorem docEntry_eq_item_iff :
    docEntry R a docLine = .item item ↔ ∃ members, R.fromStr docLine = .ok (.object members) ∧
      a.index ≠ "" ∧ (a.action = .update → a.explicitId = true) ∧
      ⟨a.action, a.index, a.docId, a.explicitId, .object members, docLine⟩ = item := by
  grind [docEntry]

theorem exists_items_add {entry : Entry} {Q : BulkItem → Prop} :
    (∃ q ∈ (o.add position entry).items, Q q.2) ↔
      (∃ item, entry = .item item ∧ Q item) ∨ ∃ q ∈ o.items, Q q.2 := by
  cases entry <;> simp [BulkParseOutcome.add]

theorem bodyActions_delete (h : parseAction P R defaultIndex line position = .ok a)
    (hdoc : ¬a.action.hasDocLine = true) :
    ∃ metadata, bodyActions R (line :: rest) = ⟨a.name, metadata, none⟩ :: bodyActions R rest ∧
      a.index = targetIndex metadata defaultIndex ∧
      a.explicitId = (explicitId P metadata).isSome ∧ a.action ≠ .update := by
  obtain ⟨metadata, more, hread, hparse, hindex, hid⟩ := exists_of_parseAction h
  obtain ⟨hline, hupdate⟩ := hasDocLine_of_parse hparse
  refine ⟨metadata, ?_, hindex, hid, fun hu => ?_⟩
  · grind [bodyActions]
  · grind

theorem bodyActions_doc (h : parseAction P R defaultIndex line position = .ok a)
    (hdoc : a.action.hasDocLine = true) :
    ∃ metadata, bodyActions R (line :: docLine :: rest)
        = ⟨a.name, metadata, some docLine⟩ :: bodyActions R rest ∧
      a.index = targetIndex metadata defaultIndex ∧
      a.explicitId = (explicitId P metadata).isSome ∧ (a.action = .update ↔ a.name = "update") := by
  obtain ⟨metadata, more, hread, hparse, hindex, hid⟩ := exists_of_parseAction h
  obtain ⟨hline, hupdate⟩ := hasDocLine_of_parse hparse
  grind [bodyActions]

theorem bodyActions_singleton (h : parseAction P R defaultIndex line position = .ok a)
    (hdoc : a.action.hasDocLine = true) : bodyActions R [line] = [] := by
  grind [hasDocLine_of_parse, exists_of_parseAction, bodyActions]

/-- The items that can be written go where the actions go that can write. -/
theorem exists_item_iff_bodyAction (h : parseLines P R defaultIndex lines position = .ok o)
    (stream : String) :
    (∃ q ∈ o.items, CanWrite q.2 ∧ q.2.stream = stream) ↔ ∃ a ∈ bodyActions R lines,
      a.Writes P R defaultIndex ∧ targetIndex a.metadata defaultIndex = stream := by
  fun_induction parseLines P R defaultIndex lines position generalizing o with
  | case1 position =>
    cases h
    simp [bodyActions]
  | case2 => cases h
  | case3 line rest position a haction hdoc ih =>
    obtain ⟨metadata, hactions, hindex, hid, hne⟩ := bodyActions_delete haction hdoc
    obtain ⟨o', ho', rfl⟩ := map_eq_ok_iff.mp h
    rw [hactions, exists_items_add (Q := fun item => CanWrite item ∧ item.stream = stream), ih ho',
      exists_mem_cons_iff]
    refine or_congr_left ⟨?_, ?_⟩
    · rintro ⟨item, hentry, -, rfl⟩
      obtain ⟨htarget, hexplicit, rfl⟩ := deleteEntry_eq_item_iff.mp hentry
      exact ⟨⟨hindex ▸ htarget, hid ▸ hexplicit⟩, hindex.symm⟩
    · rintro ⟨⟨htarget, hexplicit⟩, rfl⟩
      exact ⟨_, deleteEntry_eq_item_iff.mpr ⟨hindex.symm ▸ htarget, hid.symm ▸ hexplicit, rfl⟩,
        fun hu => absurd hu hne, hindex⟩
  | case4 line position a haction hdoc =>
    cases h
    simp [bodyActions_singleton haction (not_not.mp hdoc)]
  | case5 line position a haction hdoc docLine rest ih =>
    obtain ⟨metadata, hactions, hindex, hid, hupdate⟩ :=
      bodyActions_doc haction (not_not.mp hdoc)
    obtain ⟨o', ho', rfl⟩ := map_eq_ok_iff.mp h
    rw [hactions, exists_items_add (Q := fun item => CanWrite item ∧ item.stream = stream), ih ho',
      exists_mem_cons_iff]
    refine or_congr_left ⟨?_, ?_⟩
    · rintro ⟨item, hentry, hcan, rfl⟩
      obtain ⟨members, hdocRead, hne, hexplicit, rfl⟩ := docEntry_eq_item_iff.mp hentry
      exact ⟨⟨hindex ▸ hne, .object members, hdocRead, rfl,
        fun hn => ⟨hid ▸ hexplicit (hupdate.mpr hn), hcan (hupdate.mpr hn)⟩⟩, hindex.symm⟩
    · rintro ⟨⟨hne, doc, hdocRead, hobj, happly⟩, rfl⟩
      cases doc with
      | object members =>
        exact ⟨_, docEntry_eq_item_iff.mpr ⟨members, hdocRead, hindex.symm ▸ hne,
          fun hu => hid.symm ▸ (happly (hupdate.mp hu)).1, rfl⟩,
          fun hu => (happly (hupdate.mp hu)).2, hindex⟩
      | _ => cases hobj

end Items

/-! ### What is written comes from an item -/

theorem updateOk_of_applyUpdate {body : Value} {current : Option Value} {doc : Value} {upsert : Bool}
    (h : applyUpdate body current = .ok (some (doc, upsert))) : UpdateOk body := by
  unfold applyUpdate at h
  split at h
  · cases h
  case isFalse hscript =>
    split at h
    · cases h
    case h_2 partialDoc hdoc =>
      split at h
      · cases h
      case isFalse hobj =>
        exact ⟨by simpa using hscript, partialDoc, hdoc, by simpa using hobj⟩

theorem applyUpdate_some_of_updateOk {body : Value} (h : UpdateOk body) (current : Value) :
    ∃ doc, applyUpdate body (some current) = .ok (some (doc, false)) := by
  obtain ⟨hscript, doc, hdoc, hobj⟩ := h
  exact ⟨mergeJson current doc, by simp [applyUpdate, hscript, hdoc, hobj]⟩

variable {body : String} {P : Platform} {R : Reader} {defaultIndex : Option String}
  {o : BulkParseOutcome} {p : Prepared} {cs : List Char}

theorem lt_total_of_parseLines {lines : List String} {position : Nat}
    (h : parseLines P R defaultIndex lines position = .ok o) :
    position ≤ o.total ∧ (o.items ≠ [] → position < o.total) := by
  have htotal (position : Nat) (entry : Entry) (o : BulkParseOutcome) :
      (o.add position entry).total = o.total := by cases entry <;> rfl
  fun_induction parseLines P R defaultIndex lines position generalizing o with
  | case1 position | case4 =>
    cases h
    simp
  | case2 => cases h
  | case3 _ _ _ _ _ _ ih | case5 _ _ _ _ _ _ _ ih =>
    obtain ⟨o', ho', rfl⟩ := map_eq_ok_iff.mp h
    grind

theorem lt_total_of_mem_items (h : parseBulkBody P R body defaultIndex = .ok o) {q : Nat × BulkItem}
    (hq : q ∈ o.items) : 0 < o.total :=
  (lt_total_of_parseLines h).2 (ne_nil_of_mem hq)

theorem exists_item_of_mem_planned {env : Env} (h : prepare env defaultIndex body = .ok p) :
    ∃ outcome, parseBulkBody env.P env.R body defaultIndex = .ok outcome ∧
      ∀ plan ∈ p.planned, ∃ q ∈ outcome.items, CanWrite q.2 ∧ plan.item.stream = q.2.stream := by
  obtain ⟨outcome, named, bound, results, planned, hparse, hnamed, -, hplan, rfl⟩ := eq_of_prepare h
  refine ⟨outcome, hparse, fun plan hmem => ?_⟩
  obtain ⟨q, hq, hdec⟩ := exists_planItem_of_mem_planned hplan plan hmem
  obtain ⟨settled, hsettle, hitem⟩ := exists_settle_of_planItem hdec
  refine ⟨q, kept_subset_of_resolveItems hnamed hq, ?_⟩
  rcases settle_item hsettle with ⟨heq, hne⟩ | ⟨haction, current, doc, upsert, -, happly, heq⟩
  · exact ⟨fun hu => absurd hu hne, by rw [hitem, heq]⟩
  · exact ⟨fun _ => updateOk_of_applyUpdate happly, by rw [hitem, heq]⟩

theorem mem_numbered_iff {planned : List Planned} {x : Nat × Planned} :
    x ∈ numbered planned ↔ planned[x.1]? = some x.2 := by
  unfold numbered
  rw [List.mem_map]
  constructor
  · grind
  · intro h
    exact ⟨(x.2, x.1), mem_zipIdx_iff_getElem?.mpr h, rfl⟩

theorem exists_planned_of_directTarget {a : Accepted} {stream : String}
    (h : directTarget p a = some stream) : ∃ plan ∈ p.planned, plan.item.stream = stream := by
  obtain ⟨plan, hplan, rfl⟩ := map_eq_some_iff.mp h
  grind

/-! ### A node that accepts an item -/

theorem lookup_map_const {ids : List String} {id : String} {β : Type} {b : β} (h : id ∈ ids) :
    (ids.map fun i => (i, b)).lookup id = some b := by
  induction ids with
  | nil => cases h
  | cons i ids ih =>
    grind

/-- A node on which every stream is a document-mode stream without a mapping or a routing rule.
Updates find an empty document, and nothing else finds anything. -/
def acceptingEnv (P : Platform) (R : Reader) (item : BulkItem) : Env where
  P := P
  R := R
  autoCreateIndex := "true"
  autoCreateAllows _ := true
  cached _ _ := some ⟨1, .document⟩
  ensureStream _ _ _ := .ok ⟨1, .document⟩
  getStream _ _ := .ok true
  streamMaxSeq _ _ := .ok none
  table := .ok []
  getDocuments _ ids :=
    if item.action = .update then .found (ids.map fun id => (id, ⟨0, .object []⟩)) else .found []
  streamSchema _ _ := .ok emptySchema
  rules _ := []
  upsertTombstones := .ok ()
  appendBatch := .ok ()
  enqueue _ _ := .accepted 1

section Accepting

variable (P : Platform) (R : Reader) (item : BulkItem)

def Session.AllDocument (s : Session) : Prop := ∀ x ∈ s.infos, x.2.mode = .document

def Session.Knows (s : Session) (stream : String) : Prop := (s.infos.lookup stream).isSome = true

variable {s : Session} {stream : String} {position i : Nat} {planned : List Planned} {plan : Planned}

theorem docMode_of_knows (hall : s.AllDocument) (h : s.Knows stream) : s.docMode stream = true := by
  obtain ⟨info, hinfo⟩ := isSome_iff_exists.mp h
  obtain ⟨l₁, l₂, heq, -⟩ := lookup_eq_some_iff.mp hinfo
  have hmode : info.mode = .document := hall (stream, info) (heq ▸ by simp)
  simp [docMode, hinfo, hmode]

theorem resolveInfo_accepting (hall : s.AllDocument) (stream : String) (create : Option StreamMode) :
    ∃ s' info, resolveInfo (acceptingEnv P R item) s stream create = .ok (s', some info) ∧
      s'.AllDocument ∧ s'.Knows stream ∧ ∀ other, s.Knows other → s'.Knows other := by
  unfold resolveInfo
  cases hlookup : s.infos.lookup stream with
  | some info => grind [Knows]
  | none =>
    refine ⟨⟨s.call + 2, (stream, ⟨1, .document⟩) :: s.infos, s.observed ++ []⟩, ⟨1, .document⟩,
      ?_, ?_, ?_, ?_⟩
    · cases create <;> rfl
    · intro x hx
      rcases mem_cons.mp hx with rfl | hx
      · rfl
      · exact hall x hx
    · simp [Knows]
    · grind [Knows]

theorem resolveItems_accepting (mode : String → StreamMode) (items : List (Nat × BulkItem))
    (hall : s.AllDocument) :
    ∃ s', resolveItems (acceptingEnv P R item) mode items s = .ok ⟨s', items, []⟩ ∧
      s'.AllDocument ∧ (∀ q ∈ items, s'.Knows q.2.stream) ∧
      ∀ other, s.Knows other → s'.Knows other := by
  induction items generalizing s with
  | nil => exact ⟨s, rfl, hall, by simp, fun _ h => h⟩
  | cons q items ih =>
    obtain ⟨s₁, info, hinfo, hall₁, hknows, hkeep⟩ := resolveInfo_accepting P R item hall q.2.stream (if isWrite q.2.action ∧
        (acceptingEnv P R item).autoCreateAllows q.2.stream then some (mode q.2.stream) else none)
    obtain ⟨s₂, hrest, hall₂, hitems, hkeep₂⟩ := ih hall₁
    refine ⟨s₂, bind_eq_ok_iff.mpr ⟨(s₁, some info), hinfo,
      bind_eq_ok_iff.mpr ⟨_, hrest, rfl⟩⟩, hall₂, ?_, fun other h => hkeep₂ _ (hkeep _ h)⟩
    grind

theorem resolveRoutes_accepting (streams : List String) (hall : s.AllDocument) :
    ∃ s', resolveRoutes (acceptingEnv P R item) streams s = .ok s' ∧ s'.AllDocument ∧
      ∀ other, s.Knows other → s'.Knows other := by
  induction streams generalizing s with
  | nil => exact ⟨s, rfl, hall, fun _ h => h⟩
  | cons stream streams ih =>
    obtain ⟨s₁, info, hinfo, hall₁, -, hkeep⟩ := resolveInfo_accepting P R item hall stream (some .log)
    obtain ⟨s₂, hrest, hall₂, hkeep₂⟩ := ih hall₁
    exact ⟨s₂, bind_eq_ok_iff.mpr ⟨(s₁, some info), hinfo, hrest⟩, hall₂, fun other h => hkeep₂ _ (hkeep _ h)⟩

theorem observedBound_accepting (s : Session) (items : List (Nat × BulkItem)) :
    ∃ bound, observedBound (acceptingEnv P R item) s items = .ok bound := by
  unfold observedBound
  split
  · exact ⟨none, rfl⟩
  · exact ⟨_, rfl⟩

theorem checkMapping_accepting (s : Session) (position : Nat) (other : BulkItem) :
    checkMapping (acceptingEnv P R item) s position other = .ok none := by
  unfold checkMapping
  split <;> rfl

theorem planItem_accepting (s : Session) (items : List (Nat × BulkItem)) (position : Nat) (other : BulkItem) :
    ∃ decision, planItem (acceptingEnv P R item) s items position other = .ok decision := by
  unfold planItem
  split
  · exact ⟨_, rfl⟩
  · rw [checkMapping_accepting]
    exact ⟨_, rfl⟩

theorem planItems_accepting (s : Session) (items rest : List (Nat × BulkItem)) :
    ∃ results planned, planItems (acceptingEnv P R item) s items rest = .ok (results, planned) ∧
      ∀ q ∈ rest, ∀ plan, planItem (acceptingEnv P R item) s items q.1 q.2 = .ok (.inr plan) →
        plan ∈ planned := by
  induction rest with
  | nil => exact ⟨[], [], rfl, by simp⟩
  | cons q rest ih =>
    obtain ⟨decision, hdec⟩ := planItem_accepting P R item s items q.1 q.2
    obtain ⟨results, planned, hrest, hmem⟩ := ih
    cases decision with
    | inl body =>
      refine ⟨⟨q.1, body⟩ :: results, planned, bind_eq_ok_iff.mpr ⟨_, hdec,
        bind_eq_ok_iff.mpr ⟨_, hrest, rfl⟩⟩, fun q' hq' plan hplan => ?_⟩
      grind
    | inr first =>
      refine ⟨results, first :: planned, bind_eq_ok_iff.mpr ⟨_, hdec,
        bind_eq_ok_iff.mpr ⟨_, hrest, rfl⟩⟩, fun q' hq' plan hplan => ?_⟩
      grind

theorem settle_accepting {items : List (Nat × BulkItem)} (hmem : (position, item) ∈ items)
    (hdoc : s.docMode item.stream = true) (hcan : CanWrite item) :
    ∃ settled, settle (acceptingEnv P R item) s items item = .ok settled ∧
      settled.item.stream = item.stream ∧ settled.item.action ≠ .update := by
  unfold settle
  cases haction : item.action with
  | index =>
    by_cases hid : item.explicitId = true
    · exact ⟨⟨item, "updated", 200⟩, by simp [hid, hdoc], rfl, by simp [haction]⟩
    · exact ⟨⟨item, "created", 201⟩, by simp [hid], rfl, by simp [haction]⟩
  | create =>
    have hcurrent : currentOf (acceptingEnv P R item) s items item = .ok none := by
      simp [currentOf, acceptingEnv, haction]
    by_cases hid : item.explicitId = true
    · exact ⟨⟨item, "created", 201⟩, by simp [hid, hdoc, hcurrent, bind, Except.bind], rfl, by simp [haction]⟩
    · exact ⟨⟨item, "created", 201⟩, by simp [hid], rfl, by simp [haction]⟩
  | update =>
    have hwanted : item.docId ∈ wantedIds s items item.stream :=
      mem_filterMap.mpr ⟨(position, item), hmem, by simp [haction, hdoc]⟩
    have hcurrent : currentOf (acceptingEnv P R item) s items item
        = .ok (some ⟨0, .object []⟩) := by
      simp only [currentOf, acceptingEnv, haction, if_true]
      rw [lookup_map_const hwanted]
    obtain ⟨doc, happly⟩ := applyUpdate_some_of_updateOk (hcan haction) (.object [])
    refine ⟨⟨{ item with raw := P.toString doc, doc, action := .index }, "updated", 200⟩, ?_, rfl, by simp⟩
    simp only [hdoc, if_true, hcurrent, bind, Except.bind, settleUpdate, map_some, happly]
    rfl
  | delete => grind

theorem writeDeletes_accepting (ds : List Accepted) :
    writeDeletes (acceptingEnv P R item) ds = .ok () := by
  unfold writeDeletes
  split <;> rfl

theorem appendCopies_accepting (planned : List Planned) :
    appendCopies (acceptingEnv P R item) planned = .ok () := by
  unfold appendCopies
  split <;> rfl

theorem exists_mem_deletes (hplan : planned[i]? = some plan) (haction : plan.item.action = .delete)
    (hdoc : s.docMode plan.item.stream = true) : ∃ a ∈ deletes s planned, a.item = i := by
  obtain ⟨info, hinfo, hmode⟩ := (Option.any_eq_true _ _).mp hdoc
  refine ⟨⟨i, info.id, plan.item.docId, plan.item.explicitId, none⟩,
    mem_filterMap.mpr ⟨(i, plan), mem_numbered_iff.mpr hplan, ?_⟩, rfl⟩
  grind

theorem exists_mem_acceptedCopies (hplan : planned[i]? = some plan)
    (hwrite : isWrite plan.item.action = true) (hroute : stream ∈ plan.routes) :
    ∃ a ∈ acceptedCopies (acceptingEnv P R item) planned, a.item = i := by
  have hcopy : (i, plan, stream) ∈ copies planned :=
    mem_flatMap.mpr ⟨(i, plan), mem_numbered_iff.mpr hplan, by
      grind⟩
  obtain ⟨k, hk⟩ := mem_iff_getElem?.mp hcopy
  exact ⟨⟨i, 1, plan.item.docId, plan.item.explicitId, some plan.item.raw⟩,
    mem_filterMap.mpr ⟨(_, .accepted 1), mem_map.mpr
      ⟨((i, plan, stream), k), mem_zipIdx_iff_getElem?.mpr hk, rfl⟩, rfl⟩, rfl⟩

theorem exists_effect_accepting {defaultIndex : Option String} {body : String}
    {outcome : BulkParseOutcome} (hparse : parseBulkBody P R body defaultIndex = .ok outcome)
    (hmem : (position, item) ∈ outcome.items) (hcan : CanWrite item) :
    ∃ p, prepare (acceptingEnv P R item) defaultIndex body = .ok p ∧
      ∃ a ∈ effects (acceptingEnv P R item) p, directTarget p a = some item.stream := by
  have hstart : start.AllDocument := by simp [AllDocument, start]
  obtain ⟨s, hnamed, hall, hknows, -⟩ := resolveItems_accepting P R item
    (createMode outcome.items) outcome.items hstart
  obtain ⟨bound, hbound⟩ := observedBound_accepting P R item s outcome.items
  obtain ⟨results, planned, hplan, hplanned⟩ := planItems_accepting P R item s outcome.items outcome.items
  obtain ⟨settled, hsettle, hstream, hnot⟩ := settle_accepting P R item hmem
    (docMode_of_knows hall (hknows _ hmem)) hcan
  -- The item's plan: its own stream is its only route.
  obtain ⟨plan, hdec, hitem, hroute⟩ : ∃ plan,
      planItem (acceptingEnv P R item) s outcome.items position item = .ok (.inr plan) ∧
      plan.item = settled.item ∧ item.stream ∈ plan.routes := by
    refine ⟨⟨position, settled.item, [item.stream], settled.result, settled.status,
      item.action.asStr⟩, ?_, rfl, mem_singleton_self _⟩
    simp only [planItem, hsettle, checkMapping_accepting, bind, Except.bind]
    cases isWrite settled.item.action <;> rfl
  obtain ⟨i, hi⟩ := mem_iff_getElem?.mp (hplanned _ hmem plan hdec)
  have htotal : outcome.total ≠ 0 := by
    have := lt_total_of_mem_items hparse hmem
    omega
  refine ⟨⟨s, outcome.rejections.map rejectionResult ++ [] ++ results, planned,
    s.observed ++ bound.toList⟩, ?_, ?_⟩
  · unfold prepare
    rw [show parseBulkBody (acceptingEnv P R item).P (acceptingEnv P R item).R body defaultIndex
      = .ok outcome from hparse]
    simp only [if_neg htotal]
    exact bind_eq_ok_iff.mpr ⟨_, hnamed, bind_eq_ok_iff.mpr ⟨_, hbound, bind_eq_ok_iff.mpr ⟨_, hplan, rfl⟩⟩⟩
  · obtain ⟨s', hroutes, hall', hkeep⟩ := resolveRoutes_accepting P R item (planned.flatMap (·.routes)) hall
    have hdoc : s'.docMode plan.item.stream = true := by
      grind [docMode_of_knows]
    obtain ⟨a, ha, rfl⟩ : ∃ a ∈ deletes s' planned ++ acceptedCopies (acceptingEnv P R item) planned,
        a.item = i := by
      cases haction : plan.item.action with
      | delete =>
        obtain ⟨a, ha, hai⟩ := exists_mem_deletes hi haction hdoc
        grind
      | update => exact absurd (hitem ▸ haction) hnot
      | _ =>
        obtain ⟨a, ha, hai⟩ := exists_mem_acceptedCopies P R item hi (by rw [haction]; rfl) hroute
        grind
    refine ⟨a, ?_, ?_⟩
    · grind [appendCopies_accepting, writeDeletes_accepting, effects]
    · grind [directTarget]

end Accepting

/-! ### Requests in scope -/

theorem callSafe_iff (P : Platform) (R : Reader) (id : Identity) (call : Call) :
    CallSafe P R id call ↔ BodyInScope P R id call.defaultIndex call.body := by
  constructor
  · rintro h ⟨outcome, hparse⟩ a ha hwrites
    obtain ⟨q, hq, hcan, hstream⟩ := (exists_item_iff_bodyAction hparse _).mpr ⟨a, ha, hwrites, rfl⟩
    obtain ⟨p, hp, b, hb, htarget⟩ := exists_effect_accepting P R q.2 hparse hq hcan
    rw [← hstream]
    exact h (acceptingEnv P R q.2) p rfl rfl hp b hb q.2.stream htarget
  · rintro h env p rfl rfl hp a - stream htarget
    obtain ⟨outcome, hparse, hplanned⟩ := exists_item_of_mem_planned hp
    obtain ⟨plan, hplan, rfl⟩ := exists_planned_of_directTarget htarget
    obtain ⟨q, hq, hcan, hstream⟩ := hplanned plan hplan
    obtain ⟨b, hb, hwrites, hindex⟩ := (exists_item_iff_bodyAction hparse _).mp ⟨q, hq, hcan, rfl⟩
    rw [hstream, ← hindex]
    exact h ⟨outcome, hparse⟩ b hb hwrites

structure IsLine (text : String) : Prop where
  nonempty : text.toList ≠ []
  noNewline : '\n' ∉ text.toList
  trimmed : trimEnd text.toList = text.toList

/-- The laws of the JSON writer the synthesized bodies rest on: an object is written as one line, an
action line reads back as it is, and an object that was read reads back as an object. -/
structure Reader.ReadsItems (R : Reader) (P : Platform) : Prop where
  isLine : ∀ v : Value, v.isObject = true → IsLine (P.toString v)
  action_back : ∀ action index id,
    R.fromStr (P.toString (actionValue action index id)) = .ok (actionValue action index id)
  object_back : ∀ {text members}, R.fromStr text = .ok (.object members) →
    R.ReadsObject (P.toString (.object members))

def RouteWrites (P : Platform) (R : Reader) (req : Request) : WriteRoute → Prop
  | .bulkRoot | .bulkIndex _ | .deleteDoc _ _ | .deleteByQuery _ => True
  | .postDoc _ | .createDoc _ _ => R.ReadsObject req.body
  | .putDoc _ _ => R.ReadsObject req.body ∧ ∀ op, req.opType = some op → op = "create" ∨ op = "index"
  | .updateDoc _ _ => ∃ members doc, R.fromStr req.body = .ok (.object members) ∧
      R.fromStr (P.toString (.object members)) = .ok doc ∧ UpdateOk doc

def WriteRoute.index? : WriteRoute → Option String
  | .bulkRoot | .bulkIndex _ => none
  | .postDoc index | .putDoc index _ | .createDoc index _ | .updateDoc index _
  | .deleteDoc index _ | .deleteByQuery index => some index

/-- **The request names only streams in scope**: each action of a bulk body that can write, and the
decoded index of a document route that can write. -/
def RouteInScope (P : Platform) (R : Reader) (id : Identity) (req : Request)
    (route : WriteRoute) : Prop :=
  match route with
  | .bulkRoot => BodyInScope P R id none req.body
  | .bulkIndex index => BodyInScope P R id (some index) req.body
  | route => ∀ index, route.index? = some index → index ≠ "" → RouteWrites P R req route →
      id.allowsStream index = true

section Routes

variable {P : Platform} {R : Reader}

theorem bodyLines_cons {text : String} (h : IsLine text) (rest : String) :
    bodyLines (text ++ "\n" ++ rest) = text :: bodyLines rest := by
  have hsplit : (text ++ "\n" ++ rest).toList.splitOn '\n'
      = text.toList :: rest.toList.splitOn '\n' := by
    rw [String.toList_append, String.toList_append, append_assoc]
    refine splitOnP_append_cons_of_forall_mem (fun c hc => ?_) '\n' rfl rest.toList
    exact beq_eq_false_iff_ne.mpr fun heq => h.noNewline (heq ▸ hc)
  unfold bodyLines
  rw [hsplit, map_cons, h.trimmed, filterMap_cons]
  simp [h.nonempty]

theorem bodyLines_empty : bodyLines "" = [] := by decide

def itemMetadata (index : String) (id : Option String) : Value :=
  .object ((id.map fun id => ("_id", Value.string id)).toList ++ [("_index", .string index)])

theorem targetIndex_itemMetadata (index : String) (id : Option String) :
    targetIndex (itemMetadata index id) none = index := by
  cases id <;> simp [targetIndex, itemMetadata, Value.get, Members.get, Value.asStr, lookup]

theorem explicitId_itemMetadata (index : String) (id : Option String) :
    explicitId P (itemMetadata index id) = id := by
  cases id <;> simp [explicitId, itemMetadata, Value.get, Members.get, lookup]

variable {name : String} {action : BulkAction}

theorem parseAction_item (hR : R.ReadsItems P) (hname : BulkAction.parse name = some action)
    (index : String) (id : Option String) (position : Nat) :
    parseAction P R none (P.toString (actionValue name index id)) position
      = .ok ⟨action, name, index, id.getD (R.newUuid position), id.isSome⟩ := by
  have hread : R.fromStr (P.toString (actionValue name index id))
      = .ok (.object [(name, itemMetadata index id)]) := hR.action_back name index id
  simp only [parseAction, hread, hname, targetIndex_itemMetadata, explicitId_itemMetadata]

theorem bodyInScope_docBody (hR : R.ReadsItems P) (who : Identity)
    (hname : BulkAction.parse name = some action) (hdelete : action.hasDocLine = true) (index : String)
    (id : Option String) (members : Members) :
    BodyInScope P R who none (oneItemBody P name index id (some (.object members))) ↔
      (index ≠ "" → (∃ doc, R.fromStr (P.toString (.object members)) = .ok doc ∧
        doc.isObject = true ∧ (name = "update" → id.isSome = true ∧ UpdateOk doc)) →
      who.allowsStream index = true) := by
  have hlines : bodyLines (oneItemBody P name index id (some (.object members)))
      = [P.toString (actionValue name index id), P.toString (.object members)] := by
    have hnil := bodyLines_cons (hR.isLine (.object members) rfl) ""
    rw [bodyLines_empty, String.append_empty] at hnil
    rw [oneItemBody, bodyLines_cons (hR.isLine _ rfl), map_some, getD_some, hnil]
  have hne : name ≠ "delete" := (hasDocLine_of_parse hname).1.mp hdelete
  have hread : R.fromStr (P.toString (actionValue name index id))
      = .ok (.object [(name, itemMetadata index id)]) := hR.action_back name index id
  have hactions : bodyActions R [P.toString (actionValue name index id), P.toString (.object members)]
      = [⟨name, itemMetadata index id, some (P.toString (.object members))⟩] := by
    simp [bodyActions, hread, hne]
  have hparses : ∃ outcome, parseBulkBody P R
      (oneItemBody P name index id (some (.object members))) none = .ok outcome := by
    rw [parseBulkBody, hlines, parseLines, parseAction_item hR hname]
    simp only [hdelete, not_true_eq_false, if_false]
    exact ⟨_, rfl⟩
  rw [BodyInScope, hlines, hactions]
  simp [BodyAction.Writes, targetIndex_itemMetadata, explicitId_itemMetadata, hparses]

theorem bodyInScope_deletes (hR : R.ReadsItems P) (who : Identity) (index : String) {ids : List String}
    (hids : ids ≠ []) :
    BodyInScope P R who none (String.join (ids.map fun id => oneItemBody P "delete" index (some id) none)) ↔
      (index ≠ "" → who.allowsStream index = true) := by
  have hread (id : String) : R.fromStr (P.toString (actionValue "delete" index (some id)))
      = .ok (.object [("delete", itemMetadata index (some id))]) := hR.action_back _ _ _
  have hlines : bodyLines (String.join (ids.map fun id => oneItemBody P "delete" index (some id) none))
      = ids.map fun id => P.toString (actionValue "delete" index (some id)) := by
    clear hids
    induction ids with
    | nil => exact bodyLines_empty
    | cons id ids ih =>
      rw [map_cons, String.join_cons, oneItemBody, map_none, getD_none,
        String.append_empty, bodyLines_cons (hR.isLine _ rfl), ih, map_cons]
  have hactions : bodyActions R (ids.map fun id => P.toString (actionValue "delete" index (some id)))
      = ids.map fun id => ⟨"delete", itemMetadata index (some id), none⟩ := by
    clear hids hlines
    induction ids with
    | nil => rfl
    | cons id ids ih => simp [bodyActions, hread, ih]
  have hparses (lines : List String) (position : Nat) : ∃ outcome, parseLines P R none
      (lines.map fun id => P.toString (actionValue "delete" index (some id))) position
        = .ok outcome := by
    induction lines generalizing position with
    | nil => exact ⟨_, rfl⟩
    | cons id lines ih =>
      obtain ⟨outcome, hrest⟩ := ih (position + 1)
      rw [map_cons, parseLines, parseAction_item hR (by rfl : _ = some BulkAction.delete)]
      exact ⟨_, map_eq_ok_iff.mpr ⟨outcome, hrest, rfl⟩⟩
  rw [BodyInScope, parseBulkBody, hlines, hactions]
  constructor
  · intro h hne
    obtain ⟨id, hid⟩ := exists_mem_of_ne_nil ids hids
    have := h (hparses ids 0) _ (mem_map.mpr ⟨id, hid, rfl⟩)
    grind [explicitId_itemMetadata, targetIndex_itemMetadata, BodyAction.Writes]
  · grind [targetIndex_itemMetadata, BodyAction.Writes]

theorem docCalls_safe_iff (hR : R.ReadsItems P) (who : Identity)
    (hname : BulkAction.parse name = some action) (hdoc : action.hasDocLine = true) (index : String)
    (id : Option String) (body : String) :
    (∀ call ∈ docCalls P R name index id body, CallSafe P R who call) ↔
      (index ≠ "" → (∃ members, R.fromStr body = .ok (.object members) ∧
        ∃ doc, R.fromStr (P.toString (.object members)) = .ok doc ∧ doc.isObject = true ∧
          (name = "update" → id.isSome = true ∧ UpdateOk doc)) →
      who.allowsStream index = true) := by
  unfold docCalls
  split
  case h_1 members hread =>
    simp [callSafe_iff, bodyInScope_docBody hR who hname hdoc index id members, hread]
  grind

theorem plainCalls_safe_iff (hR : R.ReadsItems P) (who : Identity)
    (hname : BulkAction.parse name = some action) (hdoc : action.hasDocLine = true)
    (hplain : name ≠ "update") (index : String) (id : Option String) (body : String) :
    (∀ call ∈ docCalls P R name index id body, CallSafe P R who call) ↔
      (index ≠ "" → R.ReadsObject body → who.allowsStream index = true) := by
  rw [docCalls_safe_iff hR who hname hdoc]
  refine imp_congr_right fun _ => imp_congr ?_ Iff.rfl
  constructor
  · rintro ⟨members, hread, -⟩
    exact ⟨members, hread⟩
  · rintro ⟨members, hread⟩
    obtain ⟨members', hback⟩ := hR.object_back hread
    exact ⟨members, hread, .object members', hback, rfl, fun h => absurd h hplain⟩

theorem updateCalls_safe_iff (hR : R.ReadsItems P) (who : Identity) (index id body : String) :
    (∀ call ∈ docCalls P R "update" index (some id) body, CallSafe P R who call) ↔
      (index ≠ "" → (∃ members doc, R.fromStr body = .ok (.object members) ∧
        R.fromStr (P.toString (.object members)) = .ok doc ∧ UpdateOk doc) →
      who.allowsStream index = true) := by
  rw [docCalls_safe_iff hR who (by rfl : _ = some BulkAction.update) rfl]
  refine imp_congr_right fun _ => imp_congr ?_ Iff.rfl
  constructor
  · grind
  · rintro ⟨members, doc, hread, hback, hok⟩
    obtain ⟨members', hobj⟩ := hR.object_back hread
    cases hback.symm.trans hobj
    exact ⟨members, hread, _, hback, rfl, fun _ => ⟨rfl, hok⟩⟩

theorem deleteRounds_safe_iff (hR : R.ReadsItems P) (who : Identity) (index : String) :
    (∀ rounds, ∀ call ∈ deleteRounds P index rounds deleteByQueryMaxRounds 0 [],
      CallSafe P R who call) ↔ (index ≠ "" → who.allowsStream index = true) := by
  constructor
  · intro h
    have hcall := h ⟨fun _ => some ["x"], fun _ => false⟩
      ⟨none, String.join (["x"].map fun id => oneItemBody P "delete" index (some id) none)⟩
      mem_cons_self
    grind [callSafe_iff, bodyInScope_deletes]
  · intro h rounds
    generalize deleteByQueryMaxRounds = left
    generalize (0 : Nat) = round
    generalize ([] : List String) = previous
    induction left generalizing round previous with
    | zero => simp [deleteRounds]
    | succ left ih =>
      unfold deleteRounds
      split
      · simp
      case h_2 ids _ =>
        split
        · simp
        case isFalse hids =>
          grind [callSafe_iff, bodyInScope_deletes]

theorem calls_safe_iff (hR : R.ReadsItems P) (who : Identity) (req : Request) (route : WriteRoute) :
    (∀ rounds, ∀ call ∈ calls P R rounds req route, CallSafe P R who call) ↔
      RouteInScope P R who req route := by
  have hrounds : Nonempty Rounds := ⟨⟨fun _ => none, fun _ => false⟩⟩
  have hindex := plainCalls_safe_iff hR who (by rfl : BulkAction.parse "index" = some .index) rfl (by decide)
  have hcreate := plainCalls_safe_iff hR who (by rfl : BulkAction.parse "create" = some .create) rfl
    (by decide)
  cases route with
  | bulkRoot | bulkIndex index => simp [calls, RouteInScope, callSafe_iff]
  | postDoc index =>
    simp [calls, RouteInScope, index?, RouteWrites, hindex]
  | createDoc index id =>
    simp [calls, RouteInScope, index?, RouteWrites, hcreate]
  | putDoc index id =>
    simp only [calls, RouteInScope, index?, RouteWrites, forall_const, some.injEq, forall_eq']
    split
    case h_1 hop => simp [hcreate, hop]
    case h_2 hop => simp [hindex, hop]
    case h_3 hop => simp [hindex, hop]
    grind
  | updateDoc index id =>
    simp [calls, RouteInScope, index?, RouteWrites, updateCalls_safe_iff hR]
  | deleteDoc index id =>
    have hone := bodyInScope_deletes hR who index (cons_ne_nil id [])
    rw [map_singleton, String.join_cons, String.join_nil, String.append_empty] at hone
    simp [calls, RouteInScope, index?, RouteWrites, callSafe_iff, hone]
  | deleteByQuery index =>
    simp [calls, RouteInScope, index?, RouteWrites, deleteRounds_safe_iff hR]

/-- **When a write request stays in scope.** -/
theorem scopeSafe_iff (hR : R.ReadsItems P) (decode : String → Option String) (who : Identity)
    (req : Request) :
    ScopeSafe P R decode who req ↔
      ∀ stream, Auth.classify req.method req.path = .ingest (some stream) →
        Auth.require true (.as who) req.method req.path = .pass →
        ∀ route, writeRoute decode req.method req.path = some route →
          RouteInScope P R who req route := by
  simp only [ScopeSafe, ← calls_safe_iff hR]

end Routes

/-! ### A reader and a writer that meet the laws -/

def unaryText (cs : List Char) : List Char :=
  cs.flatMap fun c => List.replicate c.toNat 'x' ++ ['.']

def ofUnaryText (cs : List Char) : List Char :=
  (cs.splitOn '.').dropLast.map fun xs => Char.ofNat xs.length

theorem ofUnaryText_unaryText (cs : List Char) : ofUnaryText (unaryText cs) = cs := by
  have hsplit : (unaryText cs).splitOn '.' = cs.map (fun c => List.replicate c.toNat 'x') ++ [[]] := by
    induction cs with
    | nil => rfl
    | cons c cs ih =>
      have hc : ∀ x ∈ List.replicate c.toNat 'x', (x == '.') = false := by
        grind
      rw [unaryText, flatMap_cons, append_assoc, singleton_append]
      refine (splitOnP_append_cons_of_forall_mem hc '.' rfl _).trans ?_
      exact congrArg _ ih
  rw [ofUnaryText, hsplit, dropLast_concat, List.map_map]
  refine (map_congr_left fun c _ => ?_).trans (List.map_id cs)
  simp

def unaryLine (action index : String) (id : Option String) : List Char :=
  unaryText action.toList ++ '/' :: ((id.map fun id => unaryText id.toList).getD ['-'] ++
    '/' :: unaryText index.toList)

/-- A writer that writes action lines only, and every other value as an empty object. -/
def unaryPlatform : Platform where
  toString
    | .object [(action, .object [("_id", .string id), ("_index", .string index)])] =>
      String.ofList (unaryLine action index (some id))
    | .object [(action, .object [("_index", .string index)])] =>
      String.ofList (unaryLine action index none)
    | _ => "\x7b\x7d"
  display _ := ""
  normalize _ s := s
  parseIp _ := none

def unaryReader : Reader where
  fromStr text :=
    match text.toList.splitOn '/' with
    | [action, id, index] => .ok (actionValue (String.ofList (ofUnaryText action))
        (String.ofList (ofUnaryText index))
        (if id = ['-'] then none else some (String.ofList (ofUnaryText id))))
    | _ => .ok (.object [])
  newUuid _ := ""

theorem mem_unaryText {c : Char} (h : c ∈ unaryText cs) : c = 'x' ∨ c = '.' := by
  obtain ⟨d, -, hc⟩ := mem_flatMap.mp h
  grind

theorem toString_actionValue (action index : String) (id : Option String) :
    unaryPlatform.toString (actionValue action index id)
      = String.ofList (unaryLine action index id) := by
  cases id <;> rfl

theorem slash_notMem_unaryText : ∀ c ∈ unaryText cs, (c == '/') = false := by
  grind [mem_unaryText]

theorem unaryText_ne_dash (cs : List Char) : unaryText cs ≠ ['-'] := by
  intro h
  have hmem : '-' ∈ unaryText cs := h ▸ mem_singleton_self _
  grind [mem_unaryText]

theorem fromStr_unaryLine (action index : String) (id : Option String) :
    unaryReader.fromStr (String.ofList (unaryLine action index id))
      = .ok (actionValue action index id) := by
  have hid : ∀ c ∈ (id.map fun id => unaryText id.toList).getD ['-'], (c == '/') = false := by
    cases id with
    | none => simp
    | some id => exact slash_notMem_unaryText
  have hlast : (unaryText index.toList).splitOn '/' = [unaryText index.toList] :=
    splitOnP_eq_singleton slash_notMem_unaryText
  have hsplit : (unaryLine action index id).splitOn '/' = [unaryText action.toList,
      (id.map fun id => unaryText id.toList).getD ['-'], unaryText index.toList] := by
    refine (splitOnP_append_cons_of_forall_mem slash_notMem_unaryText '/' rfl _).trans ?_
    refine congrArg _ ((splitOnP_append_cons_of_forall_mem hid '/' rfl _).trans ?_)
    exact congrArg _ hlast
  simp only [unaryReader, String.toList_ofList, hsplit, ofUnaryText_unaryText, String.ofList_toList]
  cases id with
  | none => rfl
  | some id =>
    simp [if_neg (unaryText_ne_dash _), ofUnaryText_unaryText]

theorem isLine_ofList (hne : cs ≠ [])
    (h : ∀ c ∈ cs, c = 'x' ∨ c = '.' ∨ c = '/' ∨ c = '-' ∨ c = '\x7b' ∨ c = '\x7d') :
    IsLine (String.ofList cs) where
  nonempty := by simpa using hne
  noNewline := by
    rw [String.toList_ofList]
    grind
  trimmed := by
    rw [String.toList_ofList, trimEnd, rdropWhile_eq_self_iff]
    intro hne'
    obtain h | h | h | h | h | h := h _ (getLast_mem hne') <;> rw [h] <;> decide

theorem mem_unaryLine {c : Char} {action index : String} {id : Option String}
    (hc : c ∈ unaryLine action index id) : c = 'x' ∨ c = '.' ∨ c = '/' ∨ c = '-' := by
  simp only [unaryLine, mem_append, mem_cons] at hc
  rcases hc with hc | rfl | hc | rfl | hc
  · grind [mem_unaryText]
  · simp
  · cases id with
    | none =>
      grind
    | some id => grind [mem_unaryText]
  · simp
  · grind [mem_unaryText]

theorem toString_unaryPlatform (v : Value) :
    (∃ action index id, unaryPlatform.toString v = String.ofList (unaryLine action index id)) ∨
      unaryPlatform.toString v = "\x7b\x7d" := by
  grind [unaryPlatform]

/-! The lines of one body are read and written as JSON, and all other texts as above. -/

def indexLine : String := "\x7b\"index\":\x7b\"_id\":\"1\"\x7d\x7d"

def docLine : String := "\x7b\"m\":1\x7d"

def deleteLine : String := "\x7b\"delete\":\x7b\"_id\":\"2\",\"_index\":\"a\"\x7d\x7d"

def bodyReader : Reader where
  fromStr text :=
    if text = indexLine then .ok (.object [("index", .object [("_id", .string "1")])])
    else if text = docLine then .ok (.object [("m", .number (.posInt 1))])
    else if text = deleteLine then .ok (actionValue "delete" "a" (some "2"))
    else unaryReader.fromStr text
  newUuid := unaryReader.newUuid

def bodyText : Value → String
  | .object [("index", .object [("_id", .string "1")])] => indexLine
  | .object [("m", .number (.posInt 1))] => docLine
  | .object [("delete", .object [("_id", .string "2"), ("_index", .string "a")])] => deleteLine
  | v => unaryPlatform.toString v

def bodyPlatform : Platform := { unaryPlatform with toString := bodyText }

theorem fromStr_bodyLines :
    bodyReader.fromStr indexLine = .ok (.object [("index", .object [("_id", .string "1")])]) ∧
      bodyReader.fromStr docLine = .ok (.object [("m", .number (.posInt 1))]) ∧
      bodyReader.fromStr deleteLine = .ok (actionValue "delete" "a" (some "2")) := by
  have hdoc : docLine ≠ indexLine := by decide +kernel
  have hindex : deleteLine ≠ indexLine := by decide +kernel
  have hdelete : deleteLine ≠ docLine := by decide +kernel
  simp [bodyReader, hdoc, hindex, hdelete]

theorem bodyText_cases (v : Value) :
    (bodyText v ∈ [indexLine, docLine, deleteLine] ∧ bodyReader.fromStr (bodyText v) = .ok v) ∨
      bodyText v = unaryPlatform.toString v := by
  fun_cases bodyText v
  · exact .inl ⟨by simp, fromStr_bodyLines.1⟩
  · exact .inl ⟨by simp, fromStr_bodyLines.2.1⟩
  · exact .inl ⟨by simp, fromStr_bodyLines.2.2⟩
  · exact .inr rfl

/-- The other lines have no quotation mark. -/
theorem fromStr_bodyReader {text : String} (h : '"' ∉ text.toList) :
    bodyReader.fromStr text = unaryReader.fromStr text := by
  have hne : text ≠ indexLine ∧ text ≠ docLine ∧ text ≠ deleteLine := by
    refine ⟨?_, ?_, ?_⟩ <;> rintro rfl <;> exact h (by decide +kernel)
  simp [bodyReader, hne]

theorem isLine_bodyLines : ∀ text ∈ [indexLine, docLine, deleteLine], IsLine text := by
  intro text hmem
  simp only [mem_cons, not_mem_nil, or_false] at hmem
  obtain rfl | rfl | rfl := hmem <;> exact ⟨by decide +kernel, by decide +kernel, by decide +kernel⟩

theorem bodyReader_readsItems : bodyReader.ReadsItems bodyPlatform where
  isLine v _ := by
    change IsLine (bodyText v)
    obtain ⟨hmem, -⟩ | h := bodyText_cases v
    · exact isLine_bodyLines _ hmem
    · rw [h]
      obtain ⟨action, index, id, h⟩ | h := toString_unaryPlatform v
      · rw [h]
        exact isLine_ofList (by simp [unaryLine]) fun c hc => by grind [mem_unaryLine]
      · rw [h]
        exact isLine_ofList (cons_ne_nil '\x7b' ['\x7d']) (by simp)
  action_back action index id := by
    change bodyReader.fromStr (bodyText _) = _
    obtain ⟨-, hback⟩ | h := bodyText_cases (actionValue action index id)
    · exact hback
    · rw [h, toString_actionValue, fromStr_bodyReader, fromStr_unaryLine]
      rw [String.toList_ofList]
      exact fun hc => by grind [mem_unaryLine]
  object_back {text members} _ := by
    change bodyReader.ReadsObject (bodyText _)
    obtain ⟨-, hback⟩ | h := bodyText_cases (.object members)
    · exact ⟨members, hback⟩
    · rw [h]
      obtain ⟨action, index, id, h⟩ | h := toString_unaryPlatform (.object members)
      · rw [h, Reader.ReadsObject, fromStr_bodyReader, fromStr_unaryLine]
        · exact ⟨_, rfl⟩
        · rw [String.toList_ofList]
          exact fun hc => by grind [mem_unaryLine]
      · rw [h]
        exact ⟨[], rfl⟩

def aWriter : Identity := ⟨"shipper", false, ["ingest"], ["a"]⟩

/-- An action without an index of its own and its document, and a delete that names the index. -/
def scopedBody : String := indexLine ++ "\n" ++ (docLine ++ "\n" ++ (deleteLine ++ "\n" ++ ""))

/-- A body whose actions name the stream of the path, or none, stays there. -/
theorem scopeSafe_iff_scopedBody :
    ScopeSafe bodyPlatform bodyReader some aWriter ⟨"POST", "/a/_bulk", none, scopedBody⟩ := by
  refine (scopeSafe_iff bodyReader_readsItems some aWriter _).mpr ?_
  intro stream _ _ route hroute
  have hdecided : writeRoute some "POST" "/a/_bulk" = some (.bulkIndex "a") := by
    decide +kernel
  cases hdecided.symm.trans hroute
  have hlines : bodyLines scopedBody = [indexLine, docLine, deleteLine] := by
    have hline := isLine_bodyLines
    simp only [forall_mem_cons] at hline
    rw [scopedBody, bodyLines_cons hline.1, bodyLines_cons hline.2.1, bodyLines_cons hline.2.2.1,
      bodyLines_empty]
  have hactions : bodyActions bodyReader (bodyLines scopedBody) =
      [⟨"index", .object [("_id", .string "1")], some docLine⟩,
        ⟨"delete", itemMetadata "a" (some "2"), none⟩] := by
    rw [hlines]
    simp [bodyActions, fromStr_bodyLines, actionValue, itemMetadata]
  intro _ a ha _
  rw [hactions] at ha
  obtain rfl | rfl := mem_pair.mp ha <;> decide +kernel

/-! ### A body that leaves its path's stream -/

def escapeBody : String :=
  "\x7b\"index\":\x7b\"_index\":\"b\"\x7d\x7d\n\x7b\"m\":1\x7d\n"

def escapeReader : Reader where
  fromStr line :=
    if line = docLine then .ok (.object [("m", .number (.posInt 1))])
    else .ok (.object [("index", .object [("_index", .string "b")])])
  newUuid _ := "generated"

def escapeEnv : Env :=
  acceptingEnv unaryPlatform escapeReader ⟨.index, "b", "generated", false, .null, ""⟩

/-- **A body that leaves its path's stream.**  The identity may write to `a` only and the request is
let through for `a`; its body names `b`, and the document is written there. -/
theorem bulk_body_escapes_scope :
    Auth.classify "POST" "/a/_bulk" = .ingest (some "a") ∧
      Auth.require true (.as aWriter) "POST" "/a/_bulk" = .pass ∧
      writeRoute some "POST" "/a/_bulk" = some (.bulkIndex "a") ∧
      aWriter.allowsStream "b" = false ∧
      ∃ p, prepare escapeEnv (some "a") escapeBody = .ok p ∧
        (effects escapeEnv p).map (directTarget p) = [some "b"] := by
  decide +kernel

end RSearch.Bulk
