import Mathlib

/-!
# What a request needs, and who may make it

The middleware decides from the request's method and raw path what a request needs: nothing, the
ingest or the search right on a stream, a right that is not tied to a stream, or the administrator's.
An identity has rights and a list of stream patterns.
-/

namespace RSearch.Auth

/-! ### Patterns -/

def afterFirst (piece : List Char) : List Char → Option (List Char)
  | [] => if piece = [] then some [] else none
  | c :: cs =>
    if piece <+: c :: cs then some ((c :: cs).drop piece.length) else afterFirst piece cs

/-- What follows the pieces, each taken at its first occurrence after the one before. -/
def afterPieces : List (List Char) → List Char → Option (List Char)
  | [], rest => some rest
  | piece :: pieces, rest => (afterFirst piece rest).bind (afterPieces pieces)

/-- Whether a pattern covers a stream name: the piece before the first star begins the name, the
middle pieces follow in order, and the piece after the last star ends it. -/
def streamGlobMatches (pattern stream : String) : Bool :=
  if '*' ∉ pattern.toList then pattern == stream
  else
    let parts := pattern.toList.splitOn '*'
    let first := parts.headD []
    let last := parts.getLastD []
    if ¬first <+: stream.toList then false
    else
      match afterPieces parts.tail.dropLast (stream.toList.drop first.length) with
      | some rest => decide (last <:+ rest)
      | none => false

/-! ### Identities -/

structure Identity where
  name : String
  isAdmin : Bool
  actions : List String
  streams : List String

def Identity.allowsStream (id : Identity) (stream : String) : Bool :=
  id.streams.any fun pattern => streamGlobMatches pattern stream

/-! ### Requests -/

inductive Action where
  | open
  | ingest (stream : Option String)
  | search (stream : Option String)
  /-- A search on a stream that server-side state names. -/
  | searchContext
  | admin
  deriving DecidableEq

def segments (path : String) : List String :=
  let inner := (path.toList.dropWhile (· = '/')).rdropWhile (· = '/')
  (inner.splitOn '/').map String.ofList

def classifyIndex (method index : String) (rest : List String) : Action :=
  if method = "POST" ∧ rest = ["_bulk"] then .ingest (some index)
  else if method ∈ ["PUT", "POST", "DELETE"] ∧ rest.head? = some "_doc" then .ingest (some index)
  else if method ∈ ["PUT", "POST"] ∧ rest.length = 2 ∧ rest.head? = some "_create" then
    .ingest (some index)
  else if method = "POST" ∧ rest.length = 2 ∧ rest.head? = some "_update" then .ingest (some index)
  else if method = "POST" ∧ rest = ["_delete_by_query"] then .ingest (some index)
  else if method ∈ ["GET", "HEAD"] ∧ rest.length = 2 ∧ rest.head? = some "_doc" then
    .search (some index)
  else if method = "GET" ∧ rest.length = 2 ∧ rest.head? = some "_source" then .search (some index)
  else if rest = ["_search"] ∨ rest = ["_count"] then .search (some index)
  else if method = "PUT" ∧ rest = ["_mapping"] then .ingest (some index)
  else if index = "_refresh" ∧ rest = [] then .ingest none
  else if rest = ["_refresh"] then .ingest (some index)
  else if method = "POST" ∧ index = "_msearch" ∧ rest = [] then .search none
  else if index = "_search" ∧ rest.head? = some "scroll" then .searchContext
  else if method = "GET" ∧ (rest = ["_mapping"] ∨ rest = ["_settings"]) then .search (some index)
  else if method = "GET" ∧ (index = "_cat" ∨ index = "_rsearch" ∧ rest = ["stats"]) then
    .search none
  else if method = "GET" ∧ index = "metrics" ∧ rest = [] then .search none
  else if method ∈ ["PUT", "DELETE"] ∧ rest = [] ∧ index.toList.head? ≠ some '_' then
    .ingest (some index)
  else if method ∈ ["GET", "HEAD"] ∧ rest = [] ∧ index.toList.head? ≠ some '_' then
    .search (some index)
  else .admin

def classify (method path : String) : Action :=
  let segs := segments path
  if segs = [""] ∨ segs = ["health"] ∨ segs = ["_cluster", "health"] ∨ segs = ["ready"] then .open
  else if method = "POST" ∧ segs = ["_rsearch", "login"] then .open
  else if ["loki", "api", "v1"] <+: segs then .search none
  else if method = "POST" ∧ segs = ["_bulk"] then .ingest none
  else
    match segs with
    | [] => .admin
    | index :: rest => classifyIndex method index rest

def Identity.permits (id : Identity) : Action → Bool
  | .open => true
  | .admin => id.isAdmin
  | .ingest (some stream) => decide ("ingest" ∈ id.actions) && id.allowsStream stream
  | .ingest none => decide ("ingest" ∈ id.actions) && decide ("*" ∈ id.streams)
  | .search (some stream) => decide ("search" ∈ id.actions) && id.allowsStream stream
  | .search none => decide ("search" ∈ id.actions) && decide ("*" ∈ id.streams)
  | .searchContext => decide ("search" ∈ id.actions)

/-- Who the credentials of a request belong to: someone, no one, or it cannot be told. -/
inductive Authenticated where
  | as (id : Identity)
  | nobody
  | backendError

inductive Verdict where
  /-- The request goes on to its handler. -/
  | pass
  | unauthorized
  | unavailable
  | forbidden
  deriving DecidableEq

/-- **The middleware.**  While no user exists nothing is enforced. -/
def require (enforced : Bool) (who : Authenticated) (method path : String) : Verdict :=
  if classify method path = .open ∨ ¬enforced then .pass
  else
    match who with
    | .as id => if id.permits (classify method path) then .pass else .forbidden
    | .nobody => .unauthorized
    | .backendError => .unavailable

end RSearch.Auth
