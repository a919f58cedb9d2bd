import RSearch.Auth.Scope
import RSearch.Lib.Bytes
import RSearch.Lib.Json
import RSearch.Lib.Runs

/-!
# Accounts, and the node that remembers them

Users, sessions and API keys are rows of the metastore.  A node caches what a credential resolved to,
and keeps a flag that says whether any user exists at all.  What changes an account clears the cache of
the node it is handled on.
-/

namespace RSearch.Auth

open List Option Function

open Json (Value)

/-! ### The rows -/

structure UserRecord where
  id : ℕ
  username : String
  passwordHash : String
  role : String
  streams : List String
  deriving DecidableEq

structure ApiKeyRecord where
  name : String
  keyHash : String
  actions : List String
  streams : List String
  deriving DecidableEq

structure Session where
  tokenHash : String
  userId : ℕ
  deriving DecidableEq

structure Db where
  users : List UserRecord
  sessions : List Session
  apiKeys : List ApiKeyRecord
  nextId : ℕ
  deriving DecidableEq

namespace Db

def getUser (db : Db) (username : String) : Option UserRecord :=
  db.users.find? fun u => u.username == username

def sessionUser (db : Db) (tokenHash : String) : Option UserRecord := do
  let session ← db.sessions.find? fun s => s.tokenHash == tokenHash
  db.users.find? fun u => u.id == session.userId

def apiKeyByHash (db : Db) (keyHash : String) : Option ApiKeyRecord :=
  db.apiKeys.find? fun k => k.keyHash == keyHash

def upsertUser (db : Db) (username passwordHash role : String) (streams : List String) : Db :=
  match db.getUser username with
  | some _ =>
    { db with users := db.users.map fun u =>
        if u.username = username then ⟨u.id, username, passwordHash, role, streams⟩ else u }
  | none =>
    { db with
        users := db.users ++ [⟨db.nextId, username, passwordHash, role, streams⟩]
        nextId := db.nextId + 1 }

def deleteUser (db : Db) (username : String) : Db :=
  { db with
      users := db.users.filter fun u => u.username != username
      sessions := db.sessions.filter fun s =>
        !db.users.any fun u => u.username == username && u.id == s.userId }

def deleteApiKey (db : Db) (name : String) : Db :=
  { db with apiKeys := db.apiKeys.filter fun k => k.name != name }

def createApiKey (db : Db) (key : ApiKeyRecord) : Db :=
  { db with apiKeys := (db.apiKeys.filter fun k => k.name != key.name) ++ [key] }

def createSession (db : Db) (session : Session) : Db :=
  { db with sessions := db.sessions ++ [session] }

def expireSession (db : Db) (tokenHash : String) : Db :=
  { db with sessions := db.sessions.filter fun s => s.tokenHash != tokenHash }

end Db

/-! ### Credentials -/

structure Crypto where
  tokenDigest : String → String
  verifyPassword : (password hash : String) → Bool

def userIdentity (user : UserRecord) : Identity where
  name := user.username
  isAdmin := user.role == "admin"
  actions := if user.role == "admin" then ["ingest", "search", "admin"] else ["ingest", "search"]
  streams := user.streams

def keyIdentity (key : ApiKeyRecord) : Identity where
  name := "apikey:" ++ key.name
  isAdmin := key.actions.contains "admin"
  actions := key.actions
  streams := key.streams

inductive Credential where
  /-- A bearer token or an API key. -/
  | token (token : String)
  | basic (username password : String)
  deriving DecidableEq

def Credential.key (crypto : Crypto) : Credential → String
  | .token t => crypto.tokenDigest t
  | .basic username password =>
    crypto.tokenDigest ("basic\x00" ++ username ++ "\x00" ++ password)

/-- **What the accounts give a digest**: a session's user, a key, or the user of a name and password
with that digest. -/
inductive Db.Grants (crypto : Crypto) (db : Db) (key : String) : Identity → Prop
  | session {user : UserRecord} (h : db.sessionUser key = some user) :
      Grants crypto db key (userIdentity user)
  | apiKey {record : ApiKeyRecord} (h : db.apiKeyByHash key = some record) :
      Grants crypto db key (keyIdentity record)
  | basic {username password : String} {user : UserRecord}
      (hkey : (Credential.basic username password).key crypto = key)
      (h : db.getUser username = some user)
      (hverify : crypto.verifyPassword password user.passwordHash = true) :
      Grants crypto db key (userIdentity user)

/-! ### A node -/

structure AuthState where
  enforced : Bool
  cache : List (String × Identity)
  negative : List String
  /-- What the refresher has counted and not yet acted on. -/
  counted : Option ℕ
  /-- How often the cache was cleared, and the latest state of the metastore it was cleared for. -/
  clears : ℕ
  clearedFor : ℕ

def AuthState.default : AuthState := ⟨true, [], [], none, 0, 0⟩

def cacheLimit : ℕ := 10000

inductive AuthOp where
  | arm
  | clear (version : ℕ)
  | clearNegative
  | cachePut (key : String) (identity : Identity)
  | negativePut (key : String)
  /-- An entry reaches its age limit. -/
  | evict (key : String)
  | forget (key : String)
  | count (n : ℕ)
  /-- The refresher acts on its count. -/
  | store (n : ℕ)

def AuthOp.apply (st : AuthState) : AuthOp → AuthState
  | .arm => { st with enforced := true }
  | .clear version =>
    { st with cache := [], clears := st.clears + 1, clearedFor := max st.clearedFor version }
  | .clearNegative => { st with negative := [] }
  | .cachePut key identity =>
    let kept := if cacheLimit < st.cache.length then [] else st.cache.filter fun e => e.1 != key
    { st with cache := (key, identity) :: kept }
  | .negativePut key =>
    { st with negative := key :: if cacheLimit < st.negative.length then [] else st.negative }
  | .evict key => { st with cache := st.cache.filter fun e => e.1 != key }
  | .forget key => { st with negative := st.negative.filter fun k => k != key }
  | .count n => { st with counted := some n }
  | .store n => { st with enforced := n != 0, counted := none }

/-! ### Calls that change an account -/

inductive ChangeRequest where
  | putUser (name : String) (body : Value)
  | deleteUser (name : String)
  | deleteApiKey (name : String)

/-- How a question to the metastore, or the hashing of a password, turns out.  A write that fails may
have taken effect. -/
inductive Turn where
  | ok (text : String)
  | fails (tookEffect : Bool) (text : String)

inductive CallAnswer where
  /-- The change is the given state of the metastore, and the user was taken for the first one. -/
  | acknowledged (version : ℕ) (first : Bool)
  | refused (status : ℕ) (reason : String)
  deriving DecidableEq

inductive CallStage where
  | counting
  /-- With what the count answered, if it did not fail. -/
  | hashing (count : Option ℕ)
  | writing (count : Option ℕ) (hash : String)
  | deleting
  | arming (version : ℕ) (first : Bool)
  | clearing (version : ℕ) (first : Bool)
  | clearingNegative (version : ℕ) (first : Bool)
  | answered (answer : CallAnswer)
  deriving DecidableEq

structure Call (Node : Type) where
  node : Node
  request : ChangeRequest
  stage : CallStage

def checkPassword (body : Value) : Except CallAnswer String :=
  match (body.get "password").bind Value.asStr with
  | none => .error (.refused 400 "'password' is required")
  | some password =>
    if (Bytes.utf8 password).length < 12 then
      .error (.refused 400 "password must be at least 12 characters")
    else .ok password

def askedRole (body : Value) : Option String := (body.get "role").bind Value.asStr

def takenForFirst (count : Option ℕ) : Bool := count.getD 0 == 0

def roleOf (count : Option ℕ) (body : Value) : String :=
  if takenForFirst count then "admin" else (askedRole body).getD "user"

def streamsOf (body : Value) : List String :=
  match body.get "streams" with
  | some (.array items) => items.filterMap Value.asStr
  | _ => ["*"]

def ChangeRequest.start : ChangeRequest → CallStage
  | .putUser _ body =>
    match checkPassword body with
    | .error answer => .answered answer
    | .ok _ => .counting
  | .deleteUser _ | .deleteApiKey _ => .deleting

inductive Touch where
  | nothing
  | write (db : Db)
  | auth (op : AuthOp)

def Turn.write (turn : Turn) (db : Db) (next : CallStage) : Touch × CallStage :=
  match turn with
  | .ok _ => (.write db, next)
  | .fails tookEffect text =>
    (if tookEffect then .write db else .nothing, .answered (.refused 500 text))

def Call.advance {Node : Type} (db : Db) (version : ℕ) (turn : Turn) (call : Call Node) :
    Option (Touch × CallStage) :=
  match call.stage, call.request with
  | .counting, .putUser _ body =>
    let count := match turn with | .ok _ => some db.users.length | .fails _ _ => none
    if roleOf count body = "admin" ∨ roleOf count body = "user" then
      some (.nothing, .hashing count)
    else some (.nothing, .answered (.refused 400 "role must be 'admin' or 'user'"))
  | .hashing count, .putUser _ _ =>
    match turn with
    | .ok hash => some (.nothing, .writing count hash)
    | .fails _ _ => some (.nothing, .answered (.refused 500 "hashing failed"))
  | .writing count hash, .putUser name body =>
    some (turn.write (db.upsertUser name hash (roleOf count body) (streamsOf body))
      (.arming (version + 1) (takenForFirst count)))
  | .deleting, .deleteUser name =>
    if (db.getUser name).isSome then
      some (turn.write (db.deleteUser name) (.clearing (version + 1) false))
    else some (.nothing, .answered (match turn with
      | .ok _ => .refused 404 ("no user '" ++ name ++ "'")
      | .fails _ text => .refused 500 text))
  | .deleting, .deleteApiKey name =>
    if db.apiKeys.any fun k => k.name == name then
      some (turn.write (db.deleteApiKey name) (.clearing (version + 1) false))
    else some (.nothing, .answered (match turn with
      | .ok _ => .refused 404 ("no api key '" ++ name ++ "'")
      | .fails _ text => .refused 500 text))
  | .arming v first, _ => some (.auth .arm, .clearing v first)
  | .clearing v first, _ => some (.auth (.clear v), .clearingNegative v first)
  | .clearingNegative v first, _ =>
    some (.auth .clearNegative, .answered (.acknowledged v first))
  | _, _ => none

/-! ### Requests -/

inductive RequestStage where
  /-- At the next credential. -/
  | looking
  /-- Its token is not in the cache. -/
  | missed
  | session
  | apiKey (sessionMissed : Bool)
  | negative
  | user
  /-- With the row, and how often the cache had been cleared when it was read. -/
  | verifying (user : Option UserRecord) (clears : ℕ)
  | caching (key : String) (identity : Identity) (clears : ℕ)
  | done (result : Authenticated)
  /-- Nothing was enforced when it came. -/
  | unchecked

structure AuthRequest (Node : Type) where
  node : Node
  credentials : List Credential
  /-- What is left to try. -/
  todo : List Credential
  backendError : Bool
  stage : RequestStage

def AuthState.cacheGet (st : AuthState) (key : String) : Option Identity :=
  (st.cache.find? fun e => e.1 == key).map Prod.snd

theorem AuthState.mem_cache_of_cacheGet {st : AuthState} {key : String} {identity : Identity}
    (h : st.cacheGet key = some identity) : (key, identity) ∈ st.cache := by
  obtain ⟨⟨key', identity'⟩, hfind, rfl⟩ := map_eq_some_iff.mp h
  grind

section Proceed

variable {Node : Type}

def AuthRequest.next (r : AuthRequest Node) (backendError : Bool) : AuthRequest Node :=
  { r with todo := r.todo.tail, backendError := r.backendError || backendError, stage := .looking }

def AuthRequest.to (r : AuthRequest Node) (stage : RequestStage) : AuthRequest Node :=
  { r with stage := stage }

/-- One step of `authenticate`; `fails` says that the question it asks is not answered. -/
def AuthRequest.proceed (crypto : Crypto) (st : AuthState) (db : Db) (fails : Bool)
    (r : AuthRequest Node) : Option (Touch × AuthRequest Node) :=
  match r.stage, r.todo with
  | .looking, [] =>
    some (.nothing, r.to (.done (if r.backendError then .backendError else .nobody)))
  | .looking, credential :: _ =>
    match st.cacheGet (credential.key crypto) with
    | some identity => some (.nothing, r.to (.done (.as identity)))
    | none =>
      match credential with
      | .token _ => some (.nothing, r.to .missed)
      | .basic _ _ => some (.nothing, r.to .user)
  | .missed, .token token :: _ =>
    if st.negative.contains (crypto.tokenDigest token) then some (.nothing, r.next false)
    else some (.nothing, r.to .session)
  | .session, .token token :: _ =>
    if fails then some (.nothing, r.to (.apiKey false))
    else
      match db.sessionUser (crypto.tokenDigest token) with
      | some user =>
        some (.nothing, r.to (.caching (crypto.tokenDigest token) (userIdentity user) st.clears))
      | none => some (.nothing, r.to (.apiKey true))
  | .apiKey sessionMissed, .token token :: _ =>
    if fails then some (.nothing, r.next true)
    else
      match db.apiKeyByHash (crypto.tokenDigest token) with
      | some key =>
        some (.nothing, r.to (.caching (crypto.tokenDigest token) (keyIdentity key) st.clears))
      | none => some (.nothing, if sessionMissed then r.to .negative else r.next true)
  | .negative, .token token :: _ =>
    some (.auth (.negativePut (crypto.tokenDigest token)), r.next false)
  | .user, .basic username _ :: _ =>
    if fails then
      some (.nothing, { r with backendError := true, stage := .verifying none st.clears })
    else some (.nothing, r.to (.verifying (db.getUser username) st.clears))
  | .verifying user clears, .basic username password :: _ =>
    match user with
    | some user =>
      if !fails && crypto.verifyPassword password user.passwordHash then
        some (.nothing, r.to (.caching ((Credential.basic username password).key crypto)
          (userIdentity user) clears))
      else some (.nothing, r.next false)
    | none => some (.nothing, r.next false)
  | .caching key identity _, _ =>
    some (.auth (.cachePut key identity), r.to (.done (.as identity)))
  | _, _ => none

end Proceed

/-! ### The machine -/

structure State (Node : Type) where
  version : ℕ
  log : ℕ → Db
  nodes : Node → AuthState
  calls : ℕ → Option (Call Node)
  requests : ℕ → Option (AuthRequest Node)

inductive Act (Node : Type) where
  | call (c : ℕ) (node : Node) (request : ChangeRequest)
  | advance (c : ℕ) (turn : Turn)
  | begin (r : ℕ) (node : Node) (credentials : List Credential)
  | proceed (r : ℕ) (fails : Bool)
  /-- The refresher counts, and acts on its count. -/
  | refresherCount (node : Node) (fails : Bool)
  | refresherStore (node : Node)
  | evict (node : Node) (key : String)
  | forget (node : Node) (key : String)
  /-- A login, a session that expires, and a new or changed key. -/
  | createSession (session : Session)
  | expireSession (tokenHash : String)
  | createApiKey (key : ApiKeyRecord)

namespace State

variable {Node : Type} [DecidableEq Node]

def db (s : State Node) : Db := s.log s.version

def start (db : Db) : State Node := ⟨0, fun _ => db, fun _ => .default, fun _ => none, fun _ => none⟩

def write (s : State Node) (db : Db) : State Node :=
  { s with version := s.version + 1, log := Function.update s.log (s.version + 1) db }

def touch (s : State Node) (node : Node) : Touch → State Node
  | .nothing => s
  | .write db => s.write db
  | .auth op => { s with nodes := Function.update s.nodes node (op.apply (s.nodes node)) }

def setCall (s : State Node) (c : ℕ) (call : Call Node) : State Node :=
  { s with calls := Function.update s.calls c (some call) }

def setRequest (s : State Node) (r : ℕ) (request : AuthRequest Node) : State Node :=
  { s with requests := Function.update s.requests r (some request) }

/-- What the middleware makes of a request that comes: while nothing is enforced it goes on unchecked. -/
def arrive (s : State Node) (node : Node) (credentials : List Credential) : AuthRequest Node :=
  ⟨node, credentials, credentials, false,
    if (s.nodes node).enforced then .looking else .unchecked⟩

/-- **One step.** -/
def step (crypto : Crypto) (s : State Node) : Act Node → Option (State Node)
  | .call c node request =>
    if (s.calls c).isSome then none else some (s.setCall c ⟨node, request, request.start⟩)
  | .advance c turn => do
    let call ← s.calls c
    let (touch, stage) ← call.advance s.db s.version turn
    some ((s.touch call.node touch).setCall c { call with stage := stage })
  | .begin r node credentials =>
    if (s.requests r).isSome then none else some (s.setRequest r (s.arrive node credentials))
  | .proceed r fails => do
    let request ← s.requests r
    let (touch, request') ← request.proceed crypto (s.nodes request.node) s.db fails
    some ((s.touch request.node touch).setRequest r request')
  | .refresherCount node fails =>
    if (s.nodes node).counted.isSome then none
    else if fails then some s
    else some (s.touch node (.auth (.count s.db.users.length)))
  | .refresherStore node => do
    let n ← (s.nodes node).counted
    some (s.touch node (.auth (.store n)))
  | .evict node key => some (s.touch node (.auth (.evict key)))
  | .forget node key => some (s.touch node (.auth (.forget key)))
  | .createSession session => some (s.write (s.db.createSession session))
  | .expireSession tokenHash => some (s.write (s.db.expireSession tokenHash))
  | .createApiKey key => some (s.write (s.db.createApiKey key))

end State

/-! ### What the steps can do -/

def CallStage.version? : CallStage → Option ℕ
  | .arming v _ | .clearing v _ | .clearingNegative v _ | .answered (.acknowledged v _) => some v
  | .counting | .hashing _ | .writing _ _ | .deleting | .answered (.refused _ _) => none

def CallStage.isArming : CallStage → Bool
  | .arming _ _ => true
  | .counting | .hashing _ | .writing _ _ | .deleting | .clearing _ _ | .clearingNegative _ _
  | .answered _ => false

def ChangeRequest.isPutUser : ChangeRequest → Bool
  | .putUser _ _ => true
  | .deleteUser _ | .deleteApiKey _ => false

/-- **The steps of a call**: on its way to the write or to a refusal, the write, and the three steps
after it. -/
inductive CallMoves (request : ChangeRequest) (version : ℕ) :
    CallStage → Touch → CallStage → Prop
  | idle {stage next : CallStage} (hnext : next.version? = none) :
      CallMoves request version stage .nothing next
  | unacknowledged {stage next : CallStage} {db : Db} (hnext : next.version? = none) :
      CallMoves request version stage (.write db) next
  | put {stage : CallStage} {db : Db} {first : Bool} :
      CallMoves request version stage (.write db) (.arming (version + 1) first)
  | delete {stage : CallStage} {db : Db} (hrequest : request.isPutUser = false) :
      CallMoves request version stage (.write db) (.clearing (version + 1) false)
  | arm {v : ℕ} {first : Bool} :
      CallMoves request version (.arming v first) (.auth .arm) (.clearing v first)
  | clear {v : ℕ} {first : Bool} :
      CallMoves request version (.clearing v first) (.auth (.clear v)) (.clearingNegative v first)
  | acknowledge {v : ℕ} {first : Bool} :
      CallMoves request version (.clearingNegative v first) (.auth .clearNegative)
        (.answered (.acknowledged v first))

variable {version : ℕ}

theorem callMoves_write {request : ChangeRequest} {stage next : CallStage} {db : Db} {touch : Touch}
    {after : CallStage} (turn : Turn) (hok : CallMoves request version stage (.write db) next)
    (h : turn.write db next = (touch, after)) : CallMoves request version stage touch after := by
  unfold Turn.write at h
  split at h
  · cases h
    exact hok
  · cases h
    split_ifs
    · exact .unacknowledged rfl
    · exact .idle rfl

theorem callMoves_of_advance {Node : Type} {db : Db} {turn : Turn} {call : Call Node} {touch : Touch}
    {stage : CallStage} (h : call.advance db version turn = some (touch, stage)) :
    CallMoves call.request version call.stage touch stage := by
  obtain ⟨node, request, before⟩ := call
  unfold Call.advance at h
  dsimp only at h ⊢
  split at h
  · split_ifs at h <;> cases h <;> exact .idle rfl
  · split at h <;> cases h <;> exact .idle rfl
  · exact callMoves_write turn .put (Option.some.inj h)
  · split_ifs at h
    · exact callMoves_write turn (.delete rfl) (Option.some.inj h)
    · cases h
      split <;> exact .idle rfl
  · split_ifs at h
    · exact callMoves_write turn (.delete rfl) (Option.some.inj h)
    · cases h
      split <;> exact .idle rfl
  · cases h
    exact .arm
  · cases h
    exact .clear
  · cases h
    exact .acknowledge
  · cases h

theorem ChangeRequest.version?_start (request : ChangeRequest) : request.start.version? = none := by
  cases request with
  | putUser name body =>
    dsimp only [start]
    unfold checkPassword
    cases (body.get "password").bind Value.asStr with
    | none => rfl
    | some password =>
      dsimp only
      split_ifs <;> rfl
  | deleteUser name | deleteApiKey name => rfl

def RequestStage.isNeutral : RequestStage → Bool
  | .looking | .missed | .session | .apiKey _ | .negative | .user | .verifying none _
  | .done .nobody | .done .backendError => true
  | .verifying (some _) _ | .caching _ _ _ | .done (.as _) | .unchecked => false

/-- **The steps of a request**: on to another question or to a refusal, a hit in the cache, an answer of
the metastore, a verified password, and the answer stored. -/
inductive RequestMoves {Node : Type} (crypto : Crypto) (st : AuthState) (db : Db)
    (r : AuthRequest Node) : Touch → AuthRequest Node → Prop
  | pass {t : Touch} {r' : AuthRequest Node}
      (ht : t = .nothing ∨ ∃ key, t = .auth (.negativePut key)) (hnode : r'.node = r.node)
      (hcredentials : r'.credentials = r.credentials) (htodo : r'.todo <:+ r.todo)
      (hstage : r'.stage.isNeutral = true) : RequestMoves crypto st db r t r'
  | hit {credential : Credential} {identity : Identity} (hmem : credential ∈ r.todo)
      (hget : st.cacheGet (credential.key crypto) = some identity) :
      RequestMoves crypto st db r .nothing (r.to (.done (.as identity)))
  | read {credential : Credential} {identity : Identity} (hmem : credential ∈ r.todo)
      (hgrants : db.Grants crypto (credential.key crypto) identity) :
      RequestMoves crypto st db r .nothing
        (r.to (.caching (credential.key crypto) identity st.clears))
  | readUser {username password : String} {rest : List Credential} {user : UserRecord}
      (htodo : r.todo = .basic username password :: rest) (huser : db.getUser username = some user) :
      RequestMoves crypto st db r .nothing (r.to (.verifying (some user) st.clears))
  | verified {username password : String} {rest : List Credential} {user : UserRecord} {clears : ℕ}
      (hstage : r.stage = .verifying (some user) clears)
      (htodo : r.todo = .basic username password :: rest)
      (hverify : crypto.verifyPassword password user.passwordHash = true) :
      RequestMoves crypto st db r .nothing
        (r.to (.caching ((Credential.basic username password).key crypto) (userIdentity user) clears))
  | cached {key : String} {identity : Identity} {clears : ℕ}
      (hstage : r.stage = .caching key identity clears) :
      RequestMoves crypto st db r (.auth (.cachePut key identity)) (r.to (.done (.as identity)))

section Moves

variable {Node : Type} {crypto : Crypto} {st : AuthState} {db : Db} {r r' : AuthRequest Node}
  {t : Touch}

theorem requestMoves_to {stage : RequestStage} (h : stage.isNeutral = true) :
    RequestMoves crypto st db r .nothing (r.to stage) :=
  .pass (.inl rfl) rfl rfl suffix_rfl h

theorem requestMoves_next (backendError : Bool) :
    RequestMoves crypto st db r .nothing (r.next backendError) :=
  .pass (.inl rfl) rfl rfl (tail_suffix _) rfl

theorem requestMoves_of_proceed {fails : Bool} (h : r.proceed crypto st db fails = some (t, r')) :
    RequestMoves crypto st db r t r' := by
  unfold AuthRequest.proceed at h
  split at h
  · cases h
    refine requestMoves_to ?_
    split_ifs <;> rfl
  · next credential rest hstage htodo =>
      split at h
      · next identity hget =>
          cases h
          exact .hit (htodo ▸ mem_cons_self) hget
      · split at h <;> cases h <;> exact requestMoves_to rfl
  · split_ifs at h <;> cases h
    · exact requestMoves_next _
    · exact requestMoves_to rfl
  · next token rest hstage htodo =>
      split_ifs at h
      · cases h
        exact requestMoves_to rfl
      · split at h
        · next user huser =>
            cases h
            exact .read (htodo ▸ mem_cons_self) (.session huser)
        · cases h
          exact requestMoves_to rfl
  · next sessionMissed token rest hstage htodo =>
      split at h
      · cases h
        exact requestMoves_next _
      · split at h
        · next key hkey =>
            cases h
            exact .read (htodo ▸ mem_cons_self) (.apiKey hkey)
        · cases h
          split_ifs
          · exact requestMoves_to rfl
          · exact requestMoves_next _
  · cases h
    exact .pass (.inr ⟨_, rfl⟩) rfl rfl (tail_suffix _) rfl
  · next username password rest hstage htodo =>
      split_ifs at h
      · cases h
        exact .pass (.inl rfl) rfl rfl suffix_rfl rfl
      · cases h
        cases huser : db.getUser username with
        | none => exact requestMoves_to rfl
        | some user => exact .readUser htodo huser
  · next user clears username password rest hstage htodo =>
      split at h
      · next user hstage =>
          split_ifs at h with hverify
          · cases h
            exact .verified hstage htodo (Bool.and_eq_true_iff.mp hverify).2
          · cases h
            exact requestMoves_next _
      · cases h
        exact requestMoves_next _
  · next key identity clears hstage =>
      cases h
      exact .cached hstage
  · cases h

end Moves

namespace State

variable {Node : Type} {crypto : Crypto} {s s' : State Node}

theorem of_setCall {c c' : ℕ} {call call' : Call Node} (h : (s.setCall c call).calls c' = some call') :
    c' = c ∧ call' = call ∨ s.calls c' = some call' := by
  by_cases hc : c' = c
  · have hself : (s.setCall c call).calls c = some call := update_self _ _ _
    grind
  · exact .inr ((update_of_ne hc _ _).symm.trans h)

theorem of_setRequest {r r' : ℕ} {request request' : AuthRequest Node}
    (h : (s.setRequest r request).requests r' = some request') :
    r' = r ∧ request' = request ∨ r' ≠ r ∧ s.requests r' = some request' := by
  by_cases hr : r' = r
  · have hself : (s.setRequest r request).requests r = some request := update_self _ _ _
    grind
  · exact .inr ⟨hr, (update_of_ne hr _ _).symm.trans h⟩

variable [DecidableEq Node]

@[simp] theorem touch_calls (node : Node) (t : Touch) : (s.touch node t).calls = s.calls := by
  cases t <;> rfl

@[simp] theorem touch_requests (node : Node) (t : Touch) : (s.touch node t).requests = s.requests := by
  cases t <;> rfl

theorem version_le_touch (node : Node) (t : Touch) : s.version ≤ (s.touch node t).version := by
  cases t with
  | nothing | auth op => exact le_rfl
  | write db => exact Nat.le_succ _

theorem log_touch (node : Node) (t : Touch) {v : ℕ} (hv : v ≤ s.version) :
    (s.touch node t).log v = s.log v := by
  cases t with
  | nothing | auth op => rfl
  | write db => exact update_of_ne (by omega) _ _

/-- **The kinds of steps**: something happens on a node, and it is a call or a request that moves on,
or begins, or neither. -/
inductive Steps (crypto : Crypto) (s : State Node) : Act Node → State Node → Prop
  | call {c : ℕ} {node : Node} {request : ChangeRequest} (hfree : s.calls c = none) :
      Steps crypto s (.call c node request) (s.setCall c ⟨node, request, request.start⟩)
  | advance {c : ℕ} {turn : Turn} {call : Call Node} {touch : Touch} {stage : CallStage}
      (hcall : s.calls c = some call)
      (hadvance : call.advance s.db s.version turn = some (touch, stage)) :
      Steps crypto s (.advance c turn)
        ((s.touch call.node touch).setCall c { call with stage := stage })
  | begin {r : ℕ} {node : Node} {credentials : List Credential} (hfree : s.requests r = none) :
      Steps crypto s (.begin r node credentials) (s.setRequest r (s.arrive node credentials))
  | proceed {r : ℕ} {fails : Bool} {request next : AuthRequest Node} {touch : Touch}
      (hrequest : s.requests r = some request)
      (hproceed : request.proceed crypto (s.nodes request.node) s.db fails = some (touch, next)) :
      Steps crypto s (.proceed r fails) ((s.touch request.node touch).setRequest r next)
  | countFails {node : Node} : Steps crypto s (.refresherCount node true) s
  | count {node : Node} :
      Steps crypto s (.refresherCount node false)
        (s.touch node (.auth (.count s.db.users.length)))
  | store {node : Node} {n : ℕ} (hcounted : (s.nodes node).counted = some n) :
      Steps crypto s (.refresherStore node) (s.touch node (.auth (.store n)))
  | evict {node : Node} {key : String} :
      Steps crypto s (.evict node key) (s.touch node (.auth (.evict key)))
  | forget {node : Node} {key : String} :
      Steps crypto s (.forget node key) (s.touch node (.auth (.forget key)))
  | elsewhere {a : Act Node} {db : Db} (husers : db.users = s.db.users) :
      Steps crypto s a (s.write db)

variable {a : Act Node}

theorem steps_of_step (h : step crypto s a = some s') : Steps crypto s a s' := by
  cases a with
  | call c node request =>
    simp only [step] at h
    split_ifs at h with hfree
    cases h
    exact .call (not_isSome_iff_eq_none.mp hfree)
  | advance c turn =>
    obtain ⟨call, hcall, h⟩ := bind_eq_some_iff.mp h
    obtain ⟨⟨touch, stage⟩, hadvance, h⟩ := bind_eq_some_iff.mp h
    cases h
    exact .advance hcall hadvance
  | begin r node credentials =>
    simp only [step] at h
    split_ifs at h with hfree
    cases h
    exact .begin (not_isSome_iff_eq_none.mp hfree)
  | proceed r fails =>
    obtain ⟨request, hrequest, h⟩ := bind_eq_some_iff.mp h
    obtain ⟨⟨touch, next⟩, hproceed, h⟩ := bind_eq_some_iff.mp h
    cases h
    exact .proceed hrequest hproceed
  | refresherCount node fails =>
    simp only [step] at h
    split_ifs at h with hcounted hfails
    · cases h
      rw [hfails]
      exact .countFails
    · cases h
      rw [Bool.eq_false_of_not_eq_true hfails]
      exact .count
  | refresherStore node =>
    obtain ⟨n, hcounted, h⟩ := bind_eq_some_iff.mp h
    cases h
    exact .store hcounted
  | evict node key =>
    cases h
    exact .evict
  | forget node key =>
    cases h
    exact .forget
  | createSession session | expireSession tokenHash | createApiKey key =>
    cases h
    exact .elsewhere rfl

/-! ### Calls write states that exist -/

def Numbered (s : State Node) : Prop :=
  ∀ c call v, s.calls c = some call → call.stage.version? = some v → v ≤ s.version

omit [DecidableEq Node] in
theorem Numbered.setCall (h : s.Numbered) {c : ℕ} {call : Call Node}
    (hcall : ∀ v, call.stage.version? = some v → v ≤ s.version) : (s.setCall c call).Numbered := by
  intro c' call' v hcall' hv
  rcases of_setCall hcall' with ⟨-, rfl⟩ | hcall'
  · exact hcall v hv
  · exact h c' call' v hcall' hv

theorem Numbered.touch (h : s.Numbered) (node : Node) (t : Touch) : (s.touch node t).Numbered := by
  intro c call v hcall hv
  rw [touch_calls] at hcall
  exact (h c call v hcall hv).trans (version_le_touch node t)

theorem Numbered.advance (h : s.Numbered) {c : ℕ} {call : Call Node} {t : Touch} {stage : CallStage}
    (hcall : s.calls c = some call) (hmoves : CallMoves call.request s.version call.stage t stage) :
    ((s.touch call.node t).setCall c { call with stage := stage }).Numbered := by
  refine (h.touch call.node t).setCall fun v hv => ?_
  have hold := h c call
  obtain ⟨node, request, before⟩ := call
  cases hmoves with
  | idle hnext | unacknowledged hnext =>
    rw [hnext] at hv
    cases hv
  | put | delete =>
    cases hv
    exact le_rfl
  | arm | clear | acknowledge => exact hold v hcall hv

theorem Numbered.step (h : s.Numbered) (hstep : State.step crypto s a = some s') : s'.Numbered := by
  cases steps_of_step hstep with
  | call hfree =>
    refine h.setCall fun v hv => ?_
    rw [ChangeRequest.version?_start] at hv
    cases hv
  | advance hcall hadvance => exact h.advance hcall (callMoves_of_advance hadvance)
  | begin hfree | countFails => exact h
  | @proceed r fails request next t hrequest hproceed => exact h.touch request.node t
  | @count node | @store node n hcounted | @evict node key | @forget node key => exact h.touch node _
  | elsewhere husers => exact fun c call v hcall hv => (h c call v hcall hv).trans (Nat.le_succ _)

omit [DecidableEq Node] in
theorem start_numbered (db : Db) : (start db : State Node).Numbered := by
  rintro c call v ⟨⟩

end State

end RSearch.Auth
