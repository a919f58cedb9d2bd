import RSearch.Auth.Reads
import RSearch.Refresh.Fanout

/-!
# Requests that stand for several streams

`DELETE /{index}` and `_refresh` take an expression, the scroll handlers take ids of contexts. The
middleware has looked at the path only, so each of the four handlers compares what its request stands
for with the scope itself.
-/

namespace RSearch.Auth

open List Except Refresh

open Json (Value)
open Refresh (StreamRecord trim parts resolvePart resolveTargets toFlush)

/-! ### Answers -/

structure EsError where
  status : ℕ
  type : String
  reason : String
  rootCause : Option (String × String)
  deriving DecidableEq

def esError (status : ℕ) (type reason : String) : EsError :=
  ⟨status, type, reason, some (type, reason)⟩

def internalError (text : String) : EsError := esError 500 "internal_error" text

def indexNotFound (index : String) : EsError :=
  esError 404 "index_not_found_exception" ("no such index [" ++ index ++ "]")

def notPermitted (id : Identity) (verb stream : String) : EsError :=
  esError 403 "security_exception"
    ("identity '" ++ id.name ++ "' is not permitted to " ++ verb ++ " index [" ++ stream ++ "]")

inductive Answer where
  | error (e : EsError)
  | acknowledged
  | shards (total failed : ℕ)
  /-- The next page of a scroll. -/
  | page (scrollId : String)
  | freed (count : ℕ)
  deriving DecidableEq

inductive Effect where
  | retire (stream : String)
  | flush (stream : String)
  | read (stream : String)
  | advance (scrollId stream : String)
  | free (scrollId stream : String)
  deriving DecidableEq

def Effect.stream : Effect → String
  | .retire stream | .flush stream | .read stream | .advance _ stream | .free _ stream => stream

structure Outcome where
  answer : Answer
  effects : List Effect
  deriving DecidableEq

open Outcome

def Outcome.refuse (e : EsError) : Outcome := ⟨.error e, []⟩

/-! ### Deleting indices -/

inductive Retired where
  | done
  /-- The stream is gone already. -/
  | notFound
  | failed (text : String)

def retireAll (retire : String → Retired) : List String → Outcome
  | [] => ⟨.acknowledged, []⟩
  | target :: targets =>
    match retire target with
    | .done | .notFound =>
      let rest := retireAll retire targets
      ⟨rest.answer, .retire target :: rest.effects⟩
    | .failed text => ⟨.error (internalError text), [.retire target]⟩

def Indiscriminate (expression : List Char) : Prop :=
  expression = [] ∨ expression = "_all".toList ∨ ∃ part ∈ expression.splitOn ',', trim part = ['*']

instance (expression : List Char) : Decidable (Indiscriminate expression) :=
  inferInstanceAs (Decidable (_ ∨ _ ∨ _))

def deleteTargets (streams : List StreamRecord) (expression : List Char) :
    Except String (List String) := do
  let found ← (parts expression).mapM (resolvePart streams)
  .ok (((found.flatten.map StreamRecord.name).insertionSort (· ≤ ·)).destutter (· ≠ ·))

/-- What a deletion stands for, or why it is refused before anyone asks about its scope. -/
def deleteExpansion (streams : Except String (List StreamRecord)) (index : String) :
    Except EsError (List String) :=
  let expression := trim index.toList
  if Indiscriminate expression then
    .error (esError 400 "illegal_argument_exception"
      "Wildcard expressions or all indices are not allowed")
  else
    match streams with
    | .error text => .error (internalError text)
    | .ok streams =>
      match deleteTargets streams expression with
      | .error part => .error (indexNotFound part)
      | .ok targets => .ok targets

def deleteIndex (streams : Except String (List StreamRecord)) (retire : String → Retired)
    (id : Identity) (index : String) : Outcome :=
  match deleteExpansion streams index with
  | .error e => .refuse e
  | .ok targets =>
    match if id.isAdmin then none else targets.find? fun t => !id.allowsStream t with
    | some outside => .refuse (notPermitted id "delete" outside)
    | none => retireAll retire targets

/-! ### Refreshing indices -/

def refreshIndex (c : Refresh.Cluster) (f : Refresh.Failures) (h : Refresh.Handler c)
    (streams : Except String (List StreamRecord)) (id : Identity) (expression : String) : Outcome :=
  match streams with
  | .error text => .refuse (internalError text)
  | .ok streams =>
    let request : Refresh.Request := ⟨some streams, expression, some id⟩
    match Refresh.refresh c f h request with
    | .internalError => .refuse (internalError "")
    | .indexNotFound name => .refuse (indexNotFound name)
    | .forbidden name => .refuse (notPermitted id "refresh" name)
    | .shards total failed =>
      ⟨.shards total failed.length,
        ((request.targets.toOption.getD []).filter StreamRecord.isDocumentMode).map
          fun s => .flush s.name⟩

/-! ### Scroll contexts -/

structure ScrollRecord where
  id : String
  stream : String
  cursor : Option Value
  expired : Bool

structure Scrolls where
  rows : List ScrollRecord
  nodup : (rows.map ScrollRecord.id).Nodup

def Scrolls.live (t : Scrolls) : List ScrollRecord := t.rows.filter fun row => !row.expired

def Scrolls.get (t : Scrolls) (id : String) : Option ScrollRecord :=
  t.live.find? fun row => row.id == id

def Scrolls.named (t : Scrolls) (ids : List String) : List ScrollRecord :=
  t.rows.filter fun row => ids.contains row.id

def ScrollRecord.freeing (row : ScrollRecord) : Effect := .free row.id row.stream

structure QueryParams where
  scrollId : Option String
  scroll : Option String

def unitSeconds (unit : List Char) : Option ℚ :=
  if unit = "ms".toList then some (1 / 1000)
  else if unit = "s".toList then some 1
  else if unit = "m".toList then some 60
  else if unit = "h".toList then some 3600
  else if unit = "d".toList then some 86400
  else none

def maxKeepAliveSecs : ℚ := 24 * 3600

def parseKeepAlive (value : String) : Except EsError F64 :=
  let value := trim value.toList
  let inNumber (c : Char) : Bool := c.isDigit || c == '.'
  let secs : Option F64 := do
    let amount ← F64.ofChars (value.takeWhile inNumber)
    let seconds ← unitSeconds (value.dropWhile inNumber)
    let secs := F64.round false (amount.value * seconds)
    if amount.isFinite ∧ secs.isFinite then some secs else none
  match secs with
  | none => .error (esError 400 "illegal_argument_exception"
      ("failed to parse setting [scroll] with value [" ++ String.ofList value ++
        "] as a time value: unit is missing or unrecognized"))
  | some secs =>
    if maxKeepAliveSecs < secs.value then
      .error (esError 400 "illegal_argument_exception"
        ("Keep alive for scroll (" ++ String.ofList value ++ ") is too large. It must be less than " ++
          "(1d). This limit can be set by changing the [search.max_keep_alive] cluster level " ++
          "setting."))
    else .ok secs

structure ScrollParams where
  ids : List String
  keepAlive : Option (Except EsError F64)

/-- `scroll_params`: the ids of the path, of the body and of the query, in that order. -/
def scrollParams (fromStr : String → Except String Value) (params : QueryParams) (body : String)
    (pathId : Option String) : Except EsError ScrollParams := do
  let bodyJson ←
    if trim body.toList = [] then .ok (Value.object [])
    else
      match fromStr body with
      | .ok v => .ok v
      | .error e => .error (esError 400 "parse_exception" ("invalid scroll body: " ++ e))
  let listed (ids : Option String) : List String := (ids.map fun s => parts s.toList).getD []
  let inBody : List String :=
    match bodyJson.get "scroll_id" with
    | some (.string id) => [id]
    | some (.array items) => items.filterMap Value.asStr
    | _ => []
  let keepAlive := ((bodyJson.get "scroll").bind Value.asStr).or params.scroll
  return ⟨listed pathId ++ inBody ++ listed params.scrollId, keepAlive.map parseKeepAlive⟩

def isHexDigit (c : Char) : Bool := c.isDigit || ('a' ≤ c && c ≤ 'f') || ('A' ≤ c && c ≤ 'F')

def validScrollId (id : String) : Bool := decide (id.toList.length = 32) && id.toList.all isHexDigit

def scrollIdRequired : EsError := esError 400 "illegal_argument_exception" "scroll_id is required"

def scrollIdUnparseable : EsError := esError 400 "illegal_argument_exception" "Cannot parse scroll id"

def scrollContextMissing (id : String) : EsError :=
  ⟨404, "search_phase_execution_exception", "all shards failed",
    some ("search_context_missing_exception", "No search context found for id [" ++ id ++ "]")⟩

structure ScrollStore where
  table : Scrolls
  /-- Reading one context, listing them, moving one on, and removing some can fail. -/
  getFails : Option String
  listFails : Option String
  advanceFails : Option String
  deleteFails : Option String
  /-- The search of a context's next page, on a node with that role. -/
  search : Option (ScrollRecord → Except EsError Unit)

/-- The context a continuation is for, with the search of its next page, or why there is none.  Of
several ids the first counts. -/
def scrollContext (fromStr : String → Except String Value) (store : ScrollStore)
    (params : QueryParams) (body : String) (pathId : Option String) :
    Except EsError (ScrollRecord × (ScrollRecord → Except EsError Unit)) :=
  match store.search with
  | none => .error (esError 400 "illegal_argument_exception"
      "this node does not run the search role")
  | some search => do
    let parsed ← scrollParams fromStr params body pathId
    match parsed.ids.head? with
    | none => .error scrollIdRequired
    | some scrollId =>
      if ¬validScrollId scrollId then .error scrollIdUnparseable
      else
        let _ ← parsed.keepAlive.getD (.ok ⟨0⟩)
        match store.getFails, store.table.get scrollId with
        | some text, _ => .error (internalError text)
        | none, none => .error (scrollContextMissing scrollId)
        | none, some context => .ok (context, search)

/-- `scroll_page`: the next page of a context.  One whose first page had no hits has an empty page and
no search. -/
def scrollPage (fromStr : String → Except String Value) (store : ScrollStore) (id : Identity)
    (params : QueryParams) (body : String) (pathId : Option String) : Outcome :=
  match scrollContext fromStr store params body pathId with
  | .error e => .refuse e
  | .ok (context, search) =>
    if id.isAdmin = false ∧ id.allowsStream context.stream = false then
      .refuse (notPermitted id "read" context.stream)
    else
      match if context.cursor.isSome then search context else .ok () with
      | .error e => ⟨.error e, [.read context.stream]⟩
      | .ok () =>
        ⟨match store.advanceFails with
          | some text => .error (internalError text)
          | none => .page context.id,
          [.read context.stream, .advance context.id context.stream]⟩

def ScrollStore.free (store : ScrollStore) (rows : List ScrollRecord) : Outcome :=
  ⟨match store.deleteFails with
    | some text => .error (internalError text)
    | none => .freed rows.length,
    rows.map ScrollRecord.freeing⟩

def mine (id : Identity) (live : List ScrollRecord) (ids : List String) : List ScrollRecord :=
  live.filter fun row => id.allowsStream row.stream && (ids.contains "_all" || ids.contains row.id)

def foreign (id : Identity) (live : List ScrollRecord) (ids : List String) : Option ScrollRecord :=
  live.find? fun row => ids.contains row.id && !id.allowsStream row.stream

def clearIds (fromStr : String → Except String Value) (params : QueryParams) (body : String)
    (pathId : Option String) : Except EsError (List String) := do
  let parsed ← scrollParams fromStr params body pathId
  if "_all" ∈ parsed.ids then .ok parsed.ids
  else if parsed.ids = [] then .error scrollIdRequired
  else if ∃ scrollId ∈ parsed.ids, ¬validScrollId scrollId then .error scrollIdUnparseable
  else .ok parsed.ids

/-- `clear_scrolls`: free contexts.  Someone else's id is a refusal, but only where `_all` is not
listed. -/
def clearScrolls (fromStr : String → Except String Value) (store : ScrollStore) (id : Identity)
    (params : QueryParams) (body : String) (pathId : Option String) : Outcome :=
  match clearIds fromStr params body pathId with
  | .error e => .refuse e
  | .ok ids =>
    if id.isAdmin = true ∨ "*" ∈ id.streams then
      if "_all" ∈ ids then store.free store.table.rows else store.free (store.table.named ids)
    else
      match store.listFails with
      | some text => .refuse (internalError text)
      | none =>
        let live := store.table.live
        match if "_all" ∈ ids then none else foreign id live ids with
        | some row => .refuse (notPermitted id "read" row.stream)
        | none => store.free (store.table.named ((mine id live ids).map ScrollRecord.id))

/-! ### Requests -/

inductive Spread where
  | deleteIndex (index : String)
  | refresh (expression : String)
  | scrollNext (params : QueryParams) (body : String) (pathId : Option String)
  | clearScroll (params : QueryParams) (body : String) (pathId : Option String)

structure Backend where
  fromStr : String → Except String Value
  streams : Except String (List StreamRecord)
  retire : String → Retired
  cluster : Refresh.Cluster
  failures : Refresh.Failures
  handler : Refresh.Handler cluster
  scrolls : ScrollStore

def handle (b : Backend) (id : Identity) : Spread → Outcome
  | .deleteIndex index => deleteIndex b.streams b.retire id index
  | .refresh expression => refreshIndex b.cluster b.failures b.handler b.streams id expression
  | .scrollNext params body pathId => scrollPage b.fromStr b.scrolls id params body pathId
  | .clearScroll params body pathId => clearScrolls b.fromStr b.scrolls id params body pathId

def serve (b : Backend) (id : Identity) (needs : Action) (request : Spread) : Outcome :=
  if id.permits needs then handle b id request
  else .refuse ⟨403, "security_exception",
    "identity '" ++ id.name ++ "' is not permitted to perform this action", none⟩

/-! ### What a request stands for -/

def refreshExpansion (streams : Except String (List StreamRecord)) (expression : String) :
    Except EsError (List StreamRecord) :=
  match streams with
  | .error text => .error (internalError text)
  | .ok streams =>
    match resolveTargets streams expression with
    | .error part => .error (indexNotFound part)
    | .ok targets => .ok targets

/-- The live contexts that a list of ids stands for: `_all` is the identity's own, and an id is the
context it belongs to. -/
def clearExpansion (store : ScrollStore) (id : Identity) (ids : List String) :
    Except EsError (List ScrollRecord) :=
  match store.listFails with
  | some text => .error (internalError text)
  | none => .ok (store.table.live.filter fun row =>
    ids.contains row.id || (ids.contains "_all" && id.allowsStream row.stream))

/-- **The streams a request stands for**, or why it is refused before that is known. -/
def expansion (b : Backend) (id : Identity) : Spread → Except EsError (List String)
  | .deleteIndex index => deleteExpansion b.streams index
  | .refresh expression => (refreshExpansion b.streams expression).map (·.map StreamRecord.name)
  | .scrollNext params body pathId =>
    (scrollContext b.fromStr b.scrolls params body pathId).map fun c => [c.1.stream]
  | .clearScroll params body pathId => do
    let ids ← clearIds b.fromStr params body pathId
    let rows ← clearExpansion b.scrolls id ids
    return rows.map ScrollRecord.stream

def Leaves (b : Backend) (id : Identity) (request : Spread) : Prop :=
  ∃ targets, expansion b id request = .ok targets ∧ ∃ t ∈ targets, id.allowsStream t = false

def Outcome.Refused (o : Outcome) : Prop :=
  ∃ e : EsError, e.status = 403 ∧ o = .refuse e

def Outcome.InScope (id : Identity) (o : Outcome) : Prop :=
  ∀ e ∈ o.effects, id.allowsStream e.stream = true

/-- **The mixture**: `_all`, and beside it the id of a live context outside the scope. -/
def AllBesideForeign (b : Backend) (id : Identity) : Spread → Prop
  | .clearScroll params body pathId =>
    b.scrolls.listFails = none ∧ ∃ ids, clearIds b.fromStr params body pathId = .ok ids ∧
      "_all" ∈ ids ∧
      ∃ row ∈ b.scrolls.table.live, row.id ∈ ids ∧ id.allowsStream row.stream = false
  | .deleteIndex _ | .refresh _ | .scrollNext _ _ _ => False

section Handlers

variable {b : Backend} {id : Identity}

theorem Outcome.refuse_inScope (e : EsError) : (refuse e).InScope id := by
  rintro effect ⟨⟩

theorem Outcome.notPermitted_refused (verb stream : String) :
    (refuse (notPermitted id verb stream)).Refused := ⟨_, rfl, rfl⟩

/-! #### Deletions -/

theorem retireAll_inScope {retire : String → Retired} {targets : List String}
    (h : ∀ t ∈ targets, id.allowsStream t = true) : (retireAll retire targets).InScope id := by
  induction targets with
  | nil => rintro effect ⟨⟩
  | cons target targets ih =>
    obtain ⟨htarget, hrest⟩ := forall_mem_cons.mp h
    unfold retireAll
    cases retire target with
    | done | notFound => exact forall_mem_cons.mpr ⟨htarget, ih hrest⟩
    | failed text => exact forall_mem_singleton.mpr htarget

theorem deleteIndex_inScope (hid : id.isAdmin = false) (index : String) :
    (deleteIndex b.streams b.retire id index).InScope id := by
  grind [refuse_inScope, retireAll_inScope, deleteIndex]

theorem deleteIndex_refused (hid : id.isAdmin = false) {index : String}
    (h : Leaves b id (.deleteIndex index)) : (deleteIndex b.streams b.retire id index).Refused := by
  obtain ⟨targets, hexp, t, ht, houtside⟩ := h
  have hexp : deleteExpansion b.streams index = .ok targets := hexp
  grind [notPermitted_refused, deleteIndex]

/-! #### Refreshes -/

variable {expression body : String} {params : QueryParams} {pathId : Option String} {ids : List String}

theorem allows_of_targets {streams : List StreamRecord} {targets : List StreamRecord}
    (hid : id.isAdmin = false)
    (h : (⟨some streams, expression, some id⟩ : Request).targets = .ok targets) :
    ∀ t ∈ targets, id.allowsStream t.name = true := by
  grind [Request.targets, outsideScope]

theorem refreshIndex_inScope (hid : id.isAdmin = false) (expression : String) :
    (refreshIndex b.cluster b.failures b.handler b.streams id expression).InScope id := by
  unfold refreshIndex
  split
  · exact refuse_inScope _
  · dsimp only
    split
    · exact refuse_inScope _
    · exact refuse_inScope _
    · exact refuse_inScope _
    · next streams _ _ _ _ _ =>
        intro effect heffect
        obtain ⟨t, ht, rfl⟩ := mem_map.mp heffect
        have ht := mem_of_mem_filter ht
        cases htargets : (⟨some streams, expression, some id⟩ : Request).targets with
        | error e =>
          rw [htargets] at ht
          cases ht
        | ok targets =>
          rw [htargets] at ht
          exact allows_of_targets hid htargets t ht

theorem refreshIndex_refused (hid : id.isAdmin = false) (h : Leaves b id (.refresh expression)) :
    (refreshIndex b.cluster b.failures b.handler b.streams id expression).Refused := by
  obtain ⟨names, hexp, name, hname, houtside⟩ := h
  obtain ⟨targets, htargets, rfl⟩ := map_eq_ok_iff.mp hexp
  unfold refreshExpansion at htargets
  split at htargets
  · cases htargets
  · next streams hstreams =>
      split at htargets
      · cases htargets
      · next found hfound =>
          grind [notPermitted_refused, Request.targets, outsideScope, refresh, refreshIndex]

/-! #### Scrolls -/

theorem scrollPage_inScope (hid : id.isAdmin = false) (params : QueryParams) (body : String)
    (pathId : Option String) : (scrollPage b.fromStr b.scrolls id params body pathId).InScope id := by
  unfold scrollPage
  split
  · exact refuse_inScope _
  · next context search _ =>
      cases hallowed : id.allowsStream context.stream with
      | false =>
        grind [refuse_inScope]
      | true =>
        rw [if_neg (by simp)]
        split
        · exact forall_mem_singleton.mpr hallowed
        · exact forall_mem_cons.mpr ⟨hallowed, forall_mem_singleton.mpr hallowed⟩

theorem scrollPage_refused (hid : id.isAdmin = false) (h : Leaves b id (.scrollNext params body pathId)) :
    (scrollPage b.fromStr b.scrolls id params body pathId).Refused := by
  obtain ⟨names, hexp, name, hname, houtside⟩ := h
  obtain ⟨⟨context, search⟩, hcontext, rfl⟩ := map_eq_ok_iff.mp hexp
  grind [notPermitted_refused, scrollPage]

theorem free_inScope {store : ScrollStore} {rows : List ScrollRecord}
    (h : ∀ row ∈ rows, id.allowsStream row.stream = true) : (store.free rows).InScope id := by
  intro effect heffect
  obtain ⟨row, hrow, rfl⟩ := mem_map.mp heffect
  exact h row hrow

theorem allows_of_mem_named_mine {t : Scrolls} :
    ∀ row ∈ t.named ((mine id t.live ids).map ScrollRecord.id), id.allowsStream row.stream = true := by
  intro row hrow
  obtain ⟨hmem, hcontains⟩ := mem_filter.mp hrow
  obtain ⟨own, hown, heq⟩ := mem_map.mp (contains_iff_mem.mp hcontains)
  obtain ⟨hlive, hallowed⟩ := mem_filter.mp hown
  have hsame : own = row :=
    inj_on_of_nodup_map t.nodup (mem_of_mem_filter hlive) hmem heq
  grind

theorem clearScrolls_inScope (hid : id.isAdmin = false) (params : QueryParams) (body : String)
    (pathId : Option String) : (clearScrolls b.fromStr b.scrolls id params body pathId).InScope id := by
  unfold clearScrolls
  split
  · exact refuse_inScope _
  · grind [free_inScope, allows_of_mem_named_mine, refuse_inScope, allowsStream_of_star]

theorem clearScrolls_refused_iff (hid : id.isAdmin = false) {row : ScrollRecord}
    (hids : clearIds b.fromStr params body pathId = .ok ids) (hlist : b.scrolls.listFails = none)
    (hlive : row ∈ b.scrolls.table.live) (hrow : row.id ∈ ids)
    (houtside : id.allowsStream row.stream = false) :
    (clearScrolls b.fromStr b.scrolls id params body pathId).Refused ↔ "_all" ∉ ids := by
  have hscoped : ¬(id.isAdmin = true ∨ "*" ∈ id.streams) := by
    grind [allowsStream_of_star]
  rw [clearScrolls, hids]
  simp only [hlist, if_neg hscoped]
  split_ifs with hall
  · refine iff_of_false ?_ (not_not.mpr hall)
    rintro ⟨e, hstatus, heq⟩
    have hanswer := congrArg answer heq
    unfold ScrollStore.free refuse at hanswer
    dsimp only at hanswer
    split at hanswer
    · cases hanswer
      cases hstatus
    · cases hanswer
  · grind [notPermitted_refused, foreign]

theorem leaves_clearScroll_iff :
    Leaves b id (.clearScroll params body pathId) ↔
      ∃ ids, clearIds b.fromStr params body pathId = .ok ids ∧ b.scrolls.listFails = none ∧
        ∃ row ∈ b.scrolls.table.live, row.id ∈ ids ∧ id.allowsStream row.stream = false := by
  constructor
  · rintro ⟨names, hexp, name, hname, houtside⟩
    obtain ⟨ids, hids, hexp⟩ := of_bind hexp
    obtain ⟨rows, hrows, hexp⟩ := of_bind hexp
    cases hexp
    grind [clearExpansion]
  · rintro ⟨ids, hids, hlist, row, hlive, hrow, houtside⟩
    refine ⟨_, bind_eq_ok_iff.mpr ⟨ids, hids, bind_eq_ok_iff.mpr
      ⟨_, by rw [clearExpansion, hlist], rfl⟩⟩, row.stream, mem_map.mpr ⟨row, ?_, rfl⟩,
      houtside⟩
    grind

end Handlers

/-! ### Requests behind the middleware -/

section Serve

variable {b : Backend} {id : Identity}

theorem handle_inScope (hid : id.isAdmin = false) (request : Spread) :
    (handle b id request).InScope id := by
  cases request with
  | deleteIndex index => exact deleteIndex_inScope hid index
  | refresh expression => exact refreshIndex_inScope hid expression
  | scrollNext params body pathId => exact scrollPage_inScope hid params body pathId
  | clearScroll params body pathId => exact clearScrolls_inScope hid params body pathId

theorem serve_inScope (hid : id.isAdmin = false) (needs : Action) (request : Spread) :
    (serve b id needs request).InScope id := by
  unfold serve
  split_ifs
  · exact handle_inScope hid request
  · exact refuse_inScope _

variable {request : Spread}

theorem handle_refused_iff (hid : id.isAdmin = false) (h : Leaves b id request) :
    (handle b id request).Refused ↔ ¬AllBesideForeign b id request := by
  cases request with
  | deleteIndex index => exact iff_of_true (deleteIndex_refused hid h) not_false
  | refresh expression => exact iff_of_true (refreshIndex_refused hid h) not_false
  | scrollNext params body pathId => exact iff_of_true (scrollPage_refused hid h) not_false
  | clearScroll params body pathId =>
    obtain ⟨ids, hids, hlist, row, hlive, hrow, houtside⟩ := leaves_clearScroll_iff.mp h
    refine (clearScrolls_refused_iff hid hids hlist hlive hrow houtside).trans
      (not_congr ⟨fun hall => ?_, ?_⟩)
    · exact ⟨hlist, ids, hids, hall, row, hlive, hrow, houtside⟩
    · rintro ⟨-, ids', hids', hall, -⟩
      grind

theorem leaves_of_allBesideForeign (h : AllBesideForeign b id request) : Leaves b id request := by
  cases request with
  | deleteIndex index | refresh expression | scrollNext params body pathId => exact h.elim
  | clearScroll params body pathId =>
    obtain ⟨hlist, ids, hids, -, row, hlive, hrow, houtside⟩ := h
    grind [leaves_clearScroll_iff]

/-- **Requests that stand for several streams.**  Whatever such a request does concerns streams and
contexts in the identity's scope; and it is refused with 403 and does nothing when what it stands for
leaves the scope, **exactly when** it is not let through to the mixture of `_all` and someone else's
context. -/
theorem expansion_refused_iff (hid : id.isAdmin = false) (needs : Action) (request : Spread) :
    (serve b id needs request).InScope id ∧
      ((Leaves b id request → (serve b id needs request).Refused) ↔
        ¬(id.permits needs = true ∧ AllBesideForeign b id request)) := by
  refine ⟨serve_inScope hid needs request, ?_⟩
  unfold serve
  split_ifs with hpermits
  · rw [hpermits]
    simp only [true_and]
    constructor
    · intro h hmixed
      have hleaves := leaves_of_allBesideForeign hmixed
      exact (handle_refused_iff hid hleaves).mp (h hleaves) hmixed
    · exact fun h hleaves => (handle_refused_iff hid hleaves).mpr h
  · exact iff_of_true (fun _ => ⟨_, rfl, rfl⟩) fun h => hpermits h.1

end Serve

/-! ### A tenant and its neighbour -/

def aTenant : Identity := ⟨"tenant", false, ["ingest", "search"], ["a*"]⟩

def aScroll : String := "aaaaaaaaaaaaaaaaaaaaaaaaaaaaaaaa"

def bScroll : String := "bbbbbbbbbbbbbbbbbbbbbbbbbbbbbbbb"

def twoTenants : Backend where
  fromStr _ := .error "no body is read"
  streams := .ok [⟨"a", "document"⟩, ⟨"b", "document"⟩]
  retire _ := .done
  cluster := Refresh.pairCluster
  failures := Refresh.onlyFails "a"
  handler := Refresh.unreadHandler
  scrolls :=
    { table := ⟨[⟨aScroll, "a", none, false⟩, ⟨bScroll, "b", none, false⟩], by decide +kernel⟩
      getFails := none
      listFails := none
      advanceFails := none
      deleteFails := none
      search := none }

/-- `DELETE /a,b` is let through for `a*`, stands for `b` as well, and is refused. -/
theorem expansion_refused_list :
    aTenant.permits (classify "DELETE" "/a,b") = true ∧ Leaves twoTenants aTenant (.deleteIndex "a,b") ∧
      (serve twoTenants aTenant (classify "DELETE" "/a,b") (.deleteIndex "a,b")).Refused := by
  have hleaves : Leaves twoTenants aTenant (.deleteIndex "a,b") :=
    ⟨["a", "b"], by decide +kernel, "b", by simp, by decide +kernel⟩
  obtain ⟨-, hrefused⟩ := expansion_refused_iff (rfl : aTenant.isAdmin = false)
    (classify "DELETE" "/a,b") (.deleteIndex "a,b")
  exact ⟨by decide +kernel, hleaves, hrefused.mpr (fun h => h.2) hleaves⟩

/-- **A neighbour's id that is passed over.**  `DELETE /_search/scroll/_all,<id>` with the id of a
context on `b`, by an identity whose streams begin with `a`: the request leaves the scope, and it is
answered with success and frees the context on `a`. -/
theorem all_beside_foreign_not_refused :
    Leaves twoTenants aTenant (.clearScroll ⟨none, none⟩ "" (some ("_all," ++ bScroll))) ∧
      serve twoTenants aTenant (classify "DELETE" ("/_search/scroll/_all," ++ bScroll))
          (.clearScroll ⟨none, none⟩ "" (some ("_all," ++ bScroll)))
        = ⟨.freed 1, [.free aScroll "a"]⟩ := by
  refine ⟨⟨["a", "b"], by decide +kernel, "b", by simp, by decide +kernel⟩, by decide +kernel⟩

end RSearch.Auth
