import RSearch.Bulk.Parse
import RSearch.Bulk.Clock

/-!
# A bulk request on the node that indexes it

One bulk request, from the body to the answers: streams, tombstone bounds, what each item does, stamps,
routes, the tombstones of its deletes, the log and the queues.
-/

namespace RSearch.Bulk

open Except

open Json (Value)
open Index (Platform MappedSchema IndexError Unwind)

inductive StreamMode where
  | log
  | document
  deriving DecidableEq

structure StreamInfo where
  id : ℤ
  mode : StreamMode
  deriving DecidableEq

structure Bound where
  stream : ℤ
  docId : String
  beforeSeq : ℤ
  deriving DecidableEq

structure FoundDocument where
  version : ℤ
  source : Value

inductive Lookup where
  /-- The node runs no role that can look documents up. -/
  | noRole
  | found (docs : List (String × FoundDocument))
  | failed (reason : String)

inductive EnqueueAnswer where
  /-- Queued, under the row the stream had then. -/
  | accepted (row : ℤ)
  | saturated
  | failed (reason : String)
  deriving DecidableEq

structure Env where
  P : Platform
  R : Reader
  autoCreateIndex : String
  autoCreateAllows : String → Bool
  /-- The entry of the stream cache, while it is fresh. -/
  cached : Nat → String → Option StreamInfo
  ensureStream : Nat → String → StreamMode → Except String StreamInfo
  getStream : Nat → String → Except String Bool
  streamMaxSeq : Nat → ℤ → Except String (Option ℤ)
  /-- The tombstone table when the request looks its bounds up. -/
  table : Except String (List Bound)
  getDocuments : String → List String → Lookup
  streamSchema : Nat → String → Except String MappedSchema
  rules : Nat → List RoutingRule
  upsertTombstones : Except String Unit
  appendBatch : Except String Unit
  enqueue : Nat → String → EnqueueAnswer

inductive Failure where
  | response (status : Nat) (reason : String)
  | panicked
  deriving DecidableEq

def unavailable (e : String) : Failure := .response 503 ("metastore unavailable: " ++ e)

/-! ### Answers -/

inductive Detail where
  | ok (version : ℤ) (result : String)
  | error (type reason : String)
  | malformed (reason causedBy : String)
  deriving DecidableEq

structure ItemBody where
  action : String
  index : String
  id : Option String
  status : Nat
  detail : Detail
  deriving DecidableEq

structure ItemResult where
  position : Nat
  body : ItemBody
  deriving DecidableEq

def itemOk (action index id : String) (version : ℤ) (result : String) (status : Nat) : ItemBody :=
  ⟨action, index, some id, status, .ok version result⟩

def itemErr (action index : String) (id : Option String) (status : Nat) (type reason : String) :
    ItemBody :=
  ⟨action, index, id, status, .error type reason⟩

def malformedItemErr (action index id : String) : IndexError → ItemBody
  | .malformedField field ty reason preview =>
    ⟨action, index, some id, 400, .malformed
      ("failed to parse field [" ++ field ++ "] of type [" ++ ty.asStr ++
        "] in document with id '" ++ id ++ "'. Preview of field's value: '" ++ preview ++ "'")
      reason⟩
  | .invalidDocument reason =>
    itemErr action index (some id) 400 "mapper_parsing_exception" ("invalid document: " ++ reason)

def logModeReason (action stream : String) : String :=
  action ++ " is not supported on log-mode index [" ++ stream ++ "]; create the index with " ++
    "\x7b\"settings\":\x7b\"index\":\x7b\"mode\":\"document\"\x7d\x7d\x7d to enable " ++
    "document-level writes"

def logModeErr (action : String) (item : BulkItem) : ItemBody :=
  itemErr action item.stream (some item.docId) 400 "illegal_argument_exception"
    (logModeReason action item.stream)

/-! ### Resolving streams -/

structure Resolved where
  info : StreamInfo
  observed : Option ℤ
  deriving DecidableEq

/-- A stream's id and mode, the stream created in `mode` if there is none.  **Only a stream read
from the metastore shows the clock its highest published sequence**; a cached one does not. -/
def streamInfoCreating (env : Env) (call : Nat) (name : String) (mode : StreamMode) :
    Except String Resolved :=
  match env.cached call name with
  | some info => .ok ⟨info, none⟩
  | none => do
    let info ← env.ensureStream call name mode
    if info.mode = .document then
      return ⟨info, ← env.streamMaxSeq call info.id⟩
    else return ⟨info, none⟩

def streamInfoIfExists (env : Env) (call : Nat) (name : String) :
    Except String (Option Resolved) :=
  match env.cached call name with
  | some info => .ok (some ⟨info, none⟩)
  | none => do
    if ← env.getStream call name then
      return some (← streamInfoCreating env (call + 1) name .log)
    else return none

structure Session where
  call : Nat
  infos : List (String × StreamInfo)
  observed : List ℤ
  deriving DecidableEq

def Session.start : Session := ⟨0, [], []⟩

def Session.docMode (s : Session) (stream : String) : Bool :=
  (s.infos.lookup stream).any fun info => info.mode = .document

def resolveInfo (env : Env) (s : Session) (stream : String) (create : Option StreamMode) :
    Except Failure (Session × Option StreamInfo) :=
  match s.infos.lookup stream with
  | some info => .ok (s, some info)
  | none =>
    let resolved := match create with
      | some mode => (streamInfoCreating env s.call stream mode).map some
      | none => streamInfoIfExists env s.call stream
    match resolved with
    | .ok (some r) =>
      .ok (⟨s.call + 2, (stream, r.info) :: s.infos, s.observed ++ r.observed.toList⟩, some r.info)
    | .ok none => .ok ({ s with call := s.call + 2 }, none)
    | .error e => .error (unavailable e)

def isWrite (action : BulkAction) : Bool := action = .index ∨ action = .create

/-- The mode a missing stream is created in: document mode if the batch writes an explicit id to
it. -/
def createMode (items : List (Nat × BulkItem)) (stream : String) : StreamMode :=
  if items.any fun p => p.2.explicitId && isWrite p.2.action && p.2.stream == stream then .document
  else .log

def missingIndexErr (env : Env) (item : BulkItem) : ItemBody :=
  itemErr item.action.asStr item.stream (some item.docId) 404 "index_not_found_exception"
    (if env.autoCreateAllows item.stream then "no such index [" ++ item.stream ++ "]"
      else "no such index [" ++ item.stream ++ "] and [action.auto_create_index] is [" ++
        env.autoCreateIndex ++ "]")

structure Named where
  session : Session
  kept : List (Nat × BulkItem)
  results : List ItemResult

def resolveItems (env : Env) (mode : String → StreamMode) :
    List (Nat × BulkItem) → Session → Except Failure Named
  | [], s => .ok ⟨s, [], []⟩
  | (position, item) :: items, s => do
    let create := if isWrite item.action ∧ env.autoCreateAllows item.stream then
      some (mode item.stream) else none
    let (s, info) ← resolveInfo env s item.stream create
    let rest ← resolveItems env mode items s
    match info with
    | some _ => return { rest with kept := (position, item) :: rest.kept }
    | none => return { rest with
        results := ⟨position, missingIndexErr env item⟩ :: rest.results }

/-! ### Bounds -/

def idPairs (s : Session) (items : List (Nat × BulkItem)) : List (ℤ × String) :=
  items.filterMap fun p =>
    if p.2.explicitId ∧ s.docMode p.2.stream then
      (s.infos.lookup p.2.stream).map fun info => (info.id, p.2.docId)
    else none

def tombstoneBounds (pairs : List (ℤ × String)) (table : List Bound) : List Bound :=
  table.filter fun b => (b.stream, b.docId) ∈ pairs

def observedBound (env : Env) (s : Session) (items : List (Nat × BulkItem)) :
    Except Failure (Option ℤ) :=
  if idPairs s items = [] then .ok none
  else
    match env.table with
    | .ok table => .ok ((tombstoneBounds (idPairs s items) table).map (·.beforeSeq)).max?
    | .error e => .error (unavailable e)

/-! ### Deciding what an item does -/

def wantedIds (s : Session) (items : List (Nat × BulkItem)) (stream : String) : List String :=
  items.filterMap fun p =>
    let needs : Bool := match p.2.action with
      | .update => s.docMode p.2.stream
      | .create => s.docMode p.2.stream && p.2.explicitId
      | _ => false
    if needs ∧ p.2.stream = stream then some p.2.docId else none

/-- The current version of an item's document, or the answer to give when it cannot be told. -/
def currentOf (env : Env) (s : Session) (items : List (Nat × BulkItem)) (item : BulkItem) :
    Except ItemBody (Option FoundDocument) :=
  match env.getDocuments item.stream (wantedIds s items item.stream) with
  | .found docs => .ok (docs.lookup item.docId)
  | .noRole =>
    .error (itemErr item.action.asStr item.stream (some item.docId) 400
      "illegal_argument_exception"
      "document lookups need a node running the ingest or search role")
  | .failed reason =>
    .error (itemErr item.action.asStr item.stream (some item.docId) 503
      "unavailable_shards_exception" reason)

/-- An item that goes ahead: what it writes, and the result and status it answers with. -/
structure Settled where
  item : BulkItem
  result : String
  status : Nat

def settleUpdate (env : Env) (item : BulkItem) (current : Option FoundDocument) :
    Except ItemBody Settled :=
  match applyUpdate item.doc (current.map (·.source)) with
  | .ok (some (doc, wasUpsert)) =>
    .ok ⟨{ item with raw := env.P.toString doc, doc, action := .index },
      if wasUpsert then "created" else "updated", if wasUpsert then 201 else 200⟩
  | .ok none =>
    .error (itemErr item.action.asStr item.stream (some item.docId) 404
      "document_missing_exception" ("[" ++ item.docId ++ "]: document missing"))
  | .error reason =>
    .error (itemErr item.action.asStr item.stream (some item.docId) 400
      "illegal_argument_exception" reason)

def settle (env : Env) (s : Session) (items : List (Nat × BulkItem)) (item : BulkItem) :
    Except ItemBody Settled :=
  match item.action with
  | .index =>
    if item.explicitId then
      if s.docMode item.stream then .ok ⟨item, "updated", 200⟩
      else .error (logModeErr item.action.asStr item)
    else .ok ⟨item, "created", 201⟩
  | .create =>
    if item.explicitId then
      if s.docMode item.stream then do
        match ← currentOf env s items item with
        | some current =>
          .error (itemErr item.action.asStr item.stream (some item.docId) 409
            "version_conflict_engine_exception"
            ("[" ++ item.docId ++ "]: version conflict, document already exists (current version ["
              ++ toString current.version ++ "])"))
        | none => .ok ⟨item, "created", 201⟩
      else .error (logModeErr item.action.asStr item)
    else .ok ⟨item, "created", 201⟩
  | .update =>
    if s.docMode item.stream then do
      let current ← currentOf env s items item
      settleUpdate env item current
    else .error (logModeErr item.action.asStr item)
  | .delete => .ok ⟨item, "deleted", 200⟩

/-- The check of a document-mode write against its mapping; nothing to say when it passes, or when
there is nothing to check. -/
def checkMapping (env : Env) (s : Session) (position : Nat) (item : BulkItem) :
    Except Failure (Option IndexError) :=
  if s.docMode item.stream ∧ isWrite item.action then
    match env.streamSchema position item.stream with
    | .error e => .error (unavailable e)
    | .ok schema =>
      match Index.validateDocument env.P schema item.doc with
      | .error _ => .error .panicked
      | .ok (.ok ()) => .ok none
      | .ok (.error e) => .ok (some e)
  else .ok none

structure Planned where
  position : Nat
  item : BulkItem
  routes : List String
  result : String
  status : Nat
  /-- The action as the client sent it. -/
  wireAction : String

def planItem (env : Env) (s : Session) (items : List (Nat × BulkItem)) (position : Nat)
    (item : BulkItem) : Except Failure (ItemBody ⊕ Planned) :=
  match settle env s items item with
  | .error body => .ok (.inl body)
  | .ok settled => do
    match ← checkMapping env s position settled.item with
    | some e => return .inl (malformedItemErr item.action.asStr item.stream item.docId e)
    | none =>
      let routes := if isWrite settled.item.action then
        expandRoutes env.P (env.rules position) item.stream settled.item.doc else [item.stream]
      return .inr ⟨position, settled.item, routes, settled.result, settled.status,
        item.action.asStr⟩

def planItems (env : Env) (s : Session) (items : List (Nat × BulkItem)) :
    List (Nat × BulkItem) → Except Failure (List ItemResult × List Planned)
  | [] => .ok ([], [])
  | (position, item) :: rest => do
    let decision ← planItem env s items position item
    let (results, planned) ← planItems env s items rest
    match decision with
    | .inl body => return (⟨position, body⟩ :: results, planned)
    | .inr plan => return (results, plan :: planned)

/-! ### The request before its stamps -/

/-- A request up to its stamps: the answers already given, the items to carry out, and everything
the clock observed before the first of them. -/
structure Prepared where
  session : Session
  results : List ItemResult
  planned : List Planned
  observed : List ℤ

def rejectionResult (r : Nat × Rejection) : ItemResult :=
  ⟨r.1, itemErr r.2.action r.2.index none 400 "illegal_argument_exception" r.2.reason⟩

def prepare (env : Env) (defaultIndex : Option String) (body : String) :
    Except Failure Prepared :=
  match parseBulkBody env.P env.R body defaultIndex with
  | .error reason => .error (.response 400 reason)
  | .ok outcome =>
    if outcome.total = 0 then .error (.response 400 "empty bulk body")
    else do
      let named ← resolveItems env (createMode outcome.items) outcome.items .start
      let bound ← observedBound env named.session named.kept
      let (results, planned) ← planItems env named.session named.kept named.kept
      return ⟨named.session, outcome.rejections.map rejectionResult ++ named.results ++ results,
        planned, named.session.observed ++ bound.toList⟩

/-! ### Carrying the plan out -/

def resolveRoutes (env : Env) : List String → Session → Except Failure Session
  | [], s => .ok s
  | stream :: streams, s => do
    let (s, _) ← resolveInfo env s stream (some .log)
    resolveRoutes env streams s

/-- A write the request was granted: the planned item it belongs to, and the row it goes to. -/
structure Accepted where
  item : Nat
  row : ℤ
  docId : String
  explicitId : Bool
  /-- The document's text; a delete has none. -/
  source : Option String
  deriving DecidableEq

def numbered (planned : List Planned) : List (Nat × Planned) := planned.zipIdx.map Prod.swap

def deletes (s : Session) (planned : List Planned) : List Accepted :=
  (numbered planned).filterMap fun p =>
    if p.2.item.action = .delete then
      match s.infos.lookup p.2.item.stream with
      | some info => if info.mode = .document then
          some ⟨p.1, info.id, p.2.item.docId, p.2.item.explicitId, none⟩ else none
      | none => none
    else none

def copies (planned : List Planned) : List (Nat × Planned × String) :=
  (numbered planned).flatMap fun p =>
    if isWrite p.2.item.action then p.2.routes.map fun stream => (p.1, p.2, stream) else []

def queued (env : Env) (planned : List Planned) : List ((Nat × Planned × String) × EnqueueAnswer) :=
  (copies planned).zipIdx.map fun c => (c.1, env.enqueue c.2 c.1.2.2)

def acceptedCopies (env : Env) (planned : List Planned) : List Accepted :=
  (queued env planned).filterMap fun c =>
    match c.2 with
    | .accepted row =>
      some ⟨c.1.1, row, c.1.2.1.item.docId, c.1.2.1.item.explicitId, some c.1.2.1.item.raw⟩
    | _ => none

/-- A request whose plan was carried out: its streams, and the writes it was granted. -/
structure Committed where
  session : Session
  accepted : List Accepted
  deriving DecidableEq

def writeDeletes (env : Env) (ds : List Accepted) : Except Failure Unit :=
  if ds = [] then .ok ()
  else
    match env.upsertTombstones with
    | .ok () => .ok ()
    | .error e => .error (.response 503 ("metastore unavailable (tombstones): " ++ e))

def appendCopies (env : Env) (planned : List Planned) : Except Failure Unit :=
  if (copies planned).isEmpty then .ok ()
  else
    match env.appendBatch with
    | .ok () => .ok ()
    | .error e => .error (.response 500 ("wal append failed: " ++ e))

def commit (env : Env) (p : Prepared) : Except Failure Committed := do
  let s ← resolveRoutes env (p.planned.flatMap (·.routes)) p.session
  writeDeletes env (deletes s p.planned)
  appendCopies env p.planned
  return ⟨s, deletes s p.planned ++ acceptedCopies env p.planned⟩

/-! ### The reply -/

def deleteResult (s : Session) (plan : Planned) (seq : ℤ) : ItemBody :=
  if s.docMode plan.item.stream then
    itemOk plan.wireAction plan.item.stream plan.item.docId seq plan.result plan.status
  else logModeErr plan.wireAction plan.item

/-- The answer for a write, from the answers to its copies: one accepted copy is enough. -/
def writeResult (plan : Planned) (answers : List EnqueueAnswer) (seq : ℤ) : ItemBody :=
  let isAccepted (a : EnqueueAnswer) : Bool := match a with | .accepted _ => true | _ => false
  let reason (a : EnqueueAnswer) : Option String := match a with | .failed e => some e | _ => none
  if answers.any isAccepted then
    itemOk plan.wireAction plan.item.stream plan.item.docId seq plan.result plan.status
  else if .saturated ∈ answers then
    itemErr plan.wireAction plan.item.stream (some plan.item.docId) 429
      "es_rejected_execution_exception" "ingest queue is full; retry with backoff"
  else
    itemErr plan.wireAction plan.item.stream (some plan.item.docId) 500 "internal_error"
      ((answers.filterMap reason).getLast?.getD "no route accepted")

def planResult (env : Env) (s : Session) (planned : List Planned) (seqs : List ℤ)
    (p : Nat × Planned) : ItemResult :=
  ⟨p.2.position, match p.2.item.action with
    | .index | .create =>
      writeResult p.2 (((queued env planned).filter (·.1.1 = p.1)).map (·.2)) (seqs.getD p.1 0)
    | .delete => deleteResult s p.2 (seqs.getD p.1 0)
    | .update =>
      itemErr p.2.wireAction p.2.item.stream (some p.2.item.docId) 500 "internal_error"
        "update was not resolved"⟩

structure BulkReply where
  items : List ItemBody
  errors : Bool
  writes : List (Accepted × ℤ)

def reply (env : Env) (p : Prepared) (c : Committed) (seqs : List ℤ) : BulkReply :=
  let results := (p.results ++ (numbered p.planned).map (planResult env c.session p.planned seqs))
  let items := (results.insertionSort fun a b => a.position ≤ b.position).map (·.body)
  ⟨items, items.any fun body => decide (300 ≤ body.status),
    c.accepted.map fun a => (a, seqs.getD a.item 0)⟩

/-- **A bulk request**, on a node with the given clock and at the given pace. -/
def handleBulkLocal (env : Env) (pace : Pace) (clock : SeqClock) (defaultIndex : Option String)
    (body : String) : Except Failure BulkReply := do
  let p ← prepare env defaultIndex body
  let seqs := stamps pace (clock.observeAll p.observed) 0 p.planned.length
  let c ← commit env p
  return reply env p c seqs

/-! ### The steps of an answered request -/

variable {env : Env} {defaultIndex : Option String} {body : String} {p : Prepared}

theorem eq_of_prepare (h : prepare env defaultIndex body = .ok p) :
    ∃ outcome named bound results planned, parseBulkBody env.P env.R body defaultIndex = .ok outcome ∧
      resolveItems env (createMode outcome.items) outcome.items .start = .ok named ∧
      observedBound env named.session named.kept = .ok bound ∧
      planItems env named.session named.kept named.kept = .ok (results, planned) ∧
      p = ⟨named.session, outcome.rejections.map rejectionResult ++ named.results ++ results,
        planned, named.session.observed ++ bound.toList⟩ := by
  unfold prepare at h
  cases hparse : parseBulkBody env.P env.R body defaultIndex with
  | error e => simp [hparse] at h
  | ok outcome =>
    simp only [hparse] at h
    split at h
    · cases h
    · obtain ⟨named, hnamed, h⟩ := of_bind h
      obtain ⟨bound, hbound, h⟩ := of_bind h
      obtain ⟨⟨results, planned⟩, hplan, h⟩ := of_bind h
      cases h
      exact ⟨outcome, named, bound, results, planned, rfl, hnamed, hbound, hplan, rfl⟩

theorem accepted_of_commit {c : Committed} (h : commit env p = .ok c) :
    c.accepted = deletes c.session p.planned ++ acceptedCopies env p.planned := by
  obtain ⟨s, -, h⟩ := of_bind h
  obtain ⟨-, -, h⟩ := of_bind h
  obtain ⟨-, -, h⟩ := of_bind h
  cases h
  rfl

theorem handleBulkLocal_eq_ok_iff {pace : Pace} {clock : SeqClock} {r : BulkReply} :
    handleBulkLocal env pace clock defaultIndex body = .ok r ↔
      ∃ p c, prepare env defaultIndex body = .ok p ∧ commit env p = .ok c ∧
        r = reply env p c (stamps pace (clock.observeAll p.observed) 0 p.planned.length) := by
  constructor
  · intro h
    obtain ⟨p, hp, h⟩ := of_bind h
    obtain ⟨c, hc, h⟩ := of_bind h
    cases h
    exact ⟨p, c, hp, hc, rfl⟩
  · rintro ⟨p, c, hp, hc, rfl⟩
    exact bind_eq_ok_iff.mpr ⟨p, hp, bind_eq_ok_iff.mpr ⟨c, hc, rfl⟩⟩

end RSearch.Bulk
