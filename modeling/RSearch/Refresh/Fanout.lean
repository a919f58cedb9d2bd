import RSearch.Auth.Scope
import RSearch.Bulk.Parse
import RSearch.Cluster.Nodes

/-!
# A refresh across the ingest nodes

Documents wait in the buffers of the node that took them.  `_refresh` flushes the named document-mode
streams on the node that handles the request and asks every live ingest peer to do so, and answers with
a shard for each index and how many failed.
-/

namespace RSearch.Refresh

open List Option Cluster Auth

/-! ### The indices of an expression -/

structure StreamRecord where
  name : String
  mode : String
  deriving DecidableEq

def StreamRecord.isDocumentMode (s : StreamRecord) : Bool := s.mode == "document"

def trim (cs : List Char) : List Char := (Bulk.trimEnd cs).dropWhile Bulk.isWhitespace

/-- The streams one part of an expression names, or the part itself when it names none. -/
def resolvePart (streams : List StreamRecord) (part : String) : Except String (List StreamRecord) :=
  if '*' ∈ part.toList then .ok (streams.filter fun s => streamGlobMatches part s.name)
  else
    match streams.find? fun s => s.name == part with
    | some s => .ok [s]
    | none => .error part

def parts (expression : List Char) : List String :=
  ((expression.splitOn ',').map trim).filterMap fun cs =>
    if cs = [] then none else some (String.ofList cs)

/-- **Expand an index expression** against the live streams.  A named index that does not exist is the
error; a pattern that matches nothing is fine. -/
def resolveTargets (streams : List StreamRecord) (expression : String) :
    Except String (List StreamRecord) := do
  let expression := trim expression.toList
  let targets ←
    if expression = [] ∨ expression = "_all".toList ∨ expression = ['*'] then .ok streams
    else ((parts expression).mapM (resolvePart streams)).map List.flatten
  .ok ((targets.insertionSort fun a b => a.name ≤ b.name).destutter fun a b => a.name ≠ b.name)

def toFlush (targets : List StreamRecord) : List String :=
  (targets.filter StreamRecord.isDocumentMode).map StreamRecord.name

/-! ### Nodes, and what can go wrong between them -/

/-- A running node: whether it has an ingest pipeline, and its cluster token, if it has one. -/
structure Process where
  ingest : Bool
  token : Option String

structure Cluster where
  /-- The digest tokens are compared by. -/
  digest : String → String
  nodes : Nodes
  /-- The process that runs under a node id. -/
  process : String → Option Process
  /-- Whether an address can be read as a URL. -/
  isUrl : String → Bool
  /-- The node whose process answers at an address. -/
  route : String → Option String
  /-- A process registers the roles it has. -/
  rolesMatch : ∀ row ∈ nodes.rows, ∀ p, process row.id = some p →
    ("ingest" ∈ row.roles ↔ p.ingest = true)

inductive Exchange where
  /-- It does not arrive. -/
  | dropped
  /-- It is handled and the response does not come back. -/
  | unanswered
  | answered
  deriving DecidableEq

/-- A pattern of failures: of the network by address, of the flushes by node and stream, and whether
the whole stays within the time limit. -/
structure Failures where
  exchange : String → Exchange
  flushes : String → String → Bool
  inTime : Bool

structure Handler (c : Cluster) where
  id : String
  process : Process
  running : c.process id = some process
  listed : Bool

def peerStaleMillis : ℕ := 30000

def flushLocal (f : Failures) (node : String) (streams : List String) : List String :=
  streams.filter fun s => !f.flushes node s

/-- `refresh_internal`: the status and the names that failed.  The route exists only where there is a
pipeline and a token. -/
def refreshInternal (c : Cluster) (f : Failures) (node : String) (p : Process) (presented : String)
    (streams : List String) : ℕ × List String :=
  match p.token with
  | some token =>
    if p.ingest = false then (404, [])
    else if presented = "" ∨ c.digest presented ≠ c.digest token then (401, [])
    else (200, flushLocal f node streams)
  | none => (404, [])

def post (c : Cluster) (f : Failures) (token address : String) (streams : List String) :
    Option (ℕ × List String) := do
  let node ← c.route address
  let p ← c.process node
  if f.exchange address = .answered then some (refreshInternal c f node p token streams) else none

/-- `flush_on`: the names a peer could not flush, all of them when it cannot be reached or refuses. -/
def flushOn (c : Cluster) (f : Failures) (token address : String) (streams : List String) :
    List String :=
  if c.isUrl address = false then streams
  else
    match post c f token address streams with
    | some (200, failed) => failed
    | _ => streams

def isPeer {c : Cluster} (h : Handler c) (row : NodeRecord) : Bool :=
  row.id != h.id && decide (row.heartbeatAgeMillis < peerStaleMillis) && row.roles.contains "ingest"

def ingestPeers (c : Cluster) (h : Handler c) : List (String × String) :=
  if h.listed then
    (c.nodes.rows.filter (isPeer h)).filterMap fun row => row.address.map fun a => (row.id, a)
  else []

def flushEverywhere (c : Cluster) (f : Failures) (h : Handler c) (streams : List String) :
    List String :=
  let here := if h.process.ingest then flushLocal f h.id streams else []
  let there :=
    match h.process.token with
    | none => []
    | some token => (ingestPeers c h).flatMap fun peer => flushOn c f token peer.2 streams
  (here ++ there).dedup

def failed (c : Cluster) (f : Failures) (h : Handler c) (streams : List String) : List String :=
  if streams = [] then []
  else if f.inTime then flushEverywhere c f h streams
  else streams

inductive Response where
  | internalError
  | indexNotFound (name : String)
  | forbidden (name : String)
  /-- One shard for each index, and the names of those that failed. -/
  | shards (total : ℕ) (failed : List String)
  deriving DecidableEq

/-- A request: what the `streams` table answers, the expression, and the caller's identity. -/
structure Request where
  streams : Option (List StreamRecord)
  expression : String
  identity : Option Identity

def outsideScope (identity : Option Identity) (targets : List StreamRecord) : Option StreamRecord :=
  match identity with
  | some id => if id.isAdmin then none else targets.find? fun t => !id.allowsStream t.name
  | none => none

def Request.targets (r : Request) : Except Response (List StreamRecord) :=
  match r.streams with
  | none => .error .internalError
  | some streams =>
    match resolveTargets streams r.expression with
    | .error name => .error (.indexNotFound name)
    | .ok targets =>
      match outsideScope r.identity targets with
      | some t => .error (.forbidden t.name)
      | none => .ok targets

/-- **The handler** of `_refresh`. -/
def refresh (c : Cluster) (f : Failures) (h : Handler c) (r : Request) : Response :=
  match r.targets with
  | .error refusal => refusal
  | .ok targets => .shards targets.length (failed c f h (toFlush targets))

/-! ### What a refresh answers for -/

def accepts (c : Cluster) (token : String) (p : Process) : Bool :=
  match p.token with
  | some t => p.ingest && token != "" && c.digest token == c.digest t
  | none => false

def Handles (c : Cluster) (f : Failures) (token address node : String) : Prop :=
  c.isUrl address = true ∧ c.route address = some node ∧ f.exchange address ≠ .dropped ∧
    ∃ p, c.process node = some p ∧ accepts c token p = true

/-- **The node completes a flush of the stream** on behalf of the refresh. -/
def Completes (c : Cluster) (f : Failures) (h : Handler c) (node stream : String) : Prop :=
  f.flushes node stream = true ∧
    (node = h.id ∧ h.process.ingest = true ∨
      ∃ token, h.process.token = some token ∧
        ∃ peer ∈ ingestPeers c h, Handles c f token peer.2 node)

def IsFreshIngest (row : NodeRecord) : Prop :=
  row.heartbeatAgeMillis < peerStaleMillis ∧ "ingest" ∈ row.roles

/-- **The answers report every node that was not flushed**, under every pattern of failures: no failed
shard means that every fresh ingest node has flushed every document-mode target, and a stream that
one of them has not flushed is among the failed. -/
def Reports (c : Cluster) (h : Handler c) (r : Request) : Prop :=
  ∀ (f : Failures) (targets : List StreamRecord), r.targets = .ok targets →
    ∀ (total : ℕ) (names : List String), refresh c f h r = .shards total names →
      (names.length = 0 → ∀ row ∈ c.nodes.rows, IsFreshIngest row →
        ∀ s ∈ toFlush targets, Completes c f h row.id s) ∧
      ∀ row ∈ c.nodes.rows, IsFreshIngest row → ∀ s ∈ toFlush targets,
        ¬Completes c f h row.id s → s ∈ names

/-- The node that answers a flush request at an address with success, if the network lets it. -/
def acceptor (c : Cluster) (token address : String) : Option String :=
  if c.isUrl address = false then none
  else
    (c.route address).filter fun node => (c.process node).any (accepts c token)

/-- **The condition.**  The table can be read, the node has a token, and either one of the other fresh
ingest nodes has an address where no one ever answers, or each of them is the one that answers at an
address of theirs. -/
def AllAsked (c : Cluster) (h : Handler c) : Prop :=
  h.listed = true ∧ ∃ token, h.process.token = some token ∧
    ((∃ row ∈ c.nodes.rows, isPeer h row = true ∧
        ∃ address, row.address = some address ∧ acceptor c token address = none) ∨
      ∀ row ∈ c.nodes.rows, isPeer h row = true →
        ∃ asked ∈ c.nodes.rows, isPeer h asked = true ∧
          ∃ address, asked.address = some address ∧ acceptor c token address = some row.id)

section

variable {c : Cluster} {f : Failures} {token address node s : String} {streams : List String}

variable {p : Process} {h : Handler c}

theorem refreshInternal_of_accepts (h : accepts c token p = true) :
    refreshInternal c f node p token streams = (200, flushLocal f node streams) := by
  unfold accepts at h
  unfold refreshInternal
  split at h
  · simp only [Bool.and_eq_true, bne_iff_ne, ne_eq, beq_iff_eq] at h
    simp [h]
  · cases h

theorem refreshInternal_of_not_accepts (h : accepts c token p = false) :
    (refreshInternal c f node p token streams).1 ≠ 200 := by
  unfold accepts at h
  unfold refreshInternal
  split at h
  · next t _ =>
      cases hingest : p.ingest with
      | false => simp
      | true =>
        have hrefuse : token = "" ∨ c.digest token ≠ c.digest t := by
          by_contra hcontra
          simp_all
        simp [hrefuse]
  · decide

theorem acceptor_eq_some_iff :
    acceptor c token address = some node ↔ c.isUrl address = true ∧ c.route address = some node ∧
      ∃ p, c.process node = some p ∧ accepts c token p = true := by
  unfold acceptor
  split
  · next hurl => simp [hurl]
  · next hurl => simp [hurl, Option.any_eq_true]

theorem flushOn_eq (c : Cluster) (f : Failures) (token address : String) (streams : List String) :
    flushOn c f token address streams =
      match acceptor c token address with
      | some node => if f.exchange address = .answered then flushLocal f node streams else streams
      | none => streams := by
  cases hacceptor : acceptor c token address with
  | some node =>
    obtain ⟨hurl, hroute, p, hprocess, haccepts⟩ := acceptor_eq_some_iff.mp hacceptor
    simp only [flushOn, hurl, post, hroute, hprocess, bind_eq_bind, bind_some,
      refreshInternal_of_accepts haccepts]
    by_cases hanswered : f.exchange address = .answered <;> simp [hanswered]
  | none =>
    unfold flushOn
    split
    · rfl
    · next hurl =>
        split
        · next reply failed hpost =>
            -- A reply of success comes from a node that accepts the request.
            simp only [post, bind_eq_bind, bind_eq_some_iff, ite_none_right_eq_some, some.injEq] at hpost
            obtain ⟨node, hroute, p, hprocess, -, hreply⟩ := hpost
            have haccepts : accepts c token p = true := by
              by_contra hnot
              have hstatus : (refreshInternal c f node p token streams).1 ≠ 200 :=
                refreshInternal_of_not_accepts (Bool.eq_false_of_not_eq_true hnot)
              rw [hreply] at hstatus
              exact hstatus rfl
            have hsome := acceptor_eq_some_iff.mpr
              ⟨Bool.eq_true_of_not_eq_false hurl, hroute, p, hprocess, haccepts⟩
            rw [hacceptor] at hsome
            cases hsome
        · rfl

theorem mem_flushLocal : s ∈ flushLocal f node streams ↔ s ∈ streams ∧ f.flushes node s = false := by
  simp [flushLocal]

theorem mem_ingestPeers {peer : String × String} :
    peer ∈ ingestPeers c h ↔ h.listed = true ∧ ∃ row ∈ c.nodes.rows, isPeer h row = true ∧
      row.id = peer.1 ∧ row.address = some peer.2 := by
  unfold ingestPeers
  split
  · next hlisted =>
      simp only [mem_filterMap, mem_filter, map_eq_some_iff, hlisted, true_and]
      constructor
      · rintro ⟨row, ⟨hrow, hpeer⟩, address, haddress, rfl⟩
        exact ⟨row, hrow, hpeer, rfl, haddress⟩
      · rintro ⟨row, hrow, hpeer, hid, haddress⟩
        exact ⟨row, ⟨hrow, hpeer⟩, peer.2, haddress, by rw [hid]⟩
  · next hlisted => simp [hlisted]

theorem mem_flushEverywhere :
    s ∈ flushEverywhere c f h streams ↔ h.process.ingest = true ∧ s ∈ flushLocal f h.id streams ∨
        ∃ token, h.process.token = some token ∧
          ∃ peer ∈ ingestPeers c h, s ∈ flushOn c f token peer.2 streams := by
  simp only [flushEverywhere, mem_dedup, mem_append]
  refine or_congr ?_ ?_
  · split <;> simp_all
  · cases h.process.token <;> simp

theorem isPeer_iff {row : NodeRecord} : isPeer h row = true ↔ row.id ≠ h.id ∧ IsFreshIngest row := by
  simp [isPeer, IsFreshIngest, and_assoc]

end

/-! ### When it does -/

section

variable {c : Cluster} {h : Handler c} {r : Request}

variable {streams : List String}

theorem mem_failed_of_not_completes {f : Failures}
    (hasked : (∀ row ∈ c.nodes.rows, isPeer h row = false) ∨ AllAsked c h) {row : NodeRecord}
    (hrow : row ∈ c.nodes.rows) (hfresh : IsFreshIngest row) {s : String} (hs : s ∈ streams)
    (hnot : ¬Completes c f h row.id s) : s ∈ failed c f h streams := by
  have hne : streams ≠ [] := ne_nil_of_mem hs
  rw [failed, if_neg hne]
  split
  swap
  · exact hs
  rw [mem_flushEverywhere]
  by_cases hself : row.id = h.id
  · -- The handling node flushes its own buffer.
    have hprocess : c.process row.id = some h.process := hself ▸ h.running
    have hingest := (c.rolesMatch row hrow h.process hprocess).mp hfresh.2
    refine .inl ⟨hingest, mem_flushLocal.mpr ⟨hs, ?_⟩⟩
    rw [← hself]
    by_contra hflushes
    exact hnot ⟨Bool.eq_true_of_not_eq_false hflushes, .inl ⟨hself, hingest⟩⟩
  · have hpeer : isPeer h row = true := isPeer_iff.mpr ⟨hself, hfresh⟩
    rcases hasked with hnone | ⟨hlisted, token, htoken, hdead | hall⟩
    · rw [hnone row hrow] at hpeer
      cases hpeer
    · obtain ⟨dead, hdeadRow, hdeadPeer, address, haddress, hacceptor⟩ := hdead
      refine .inr ⟨token, htoken, (dead.id, address),
        mem_ingestPeers.mpr ⟨hlisted, dead, hdeadRow, hdeadPeer, rfl, haddress⟩, ?_⟩
      rw [flushOn_eq, hacceptor]
      exact hs
    · obtain ⟨asked, haskedRow, haskedPeer, address, haddress, hacceptor⟩ := hall row hrow hpeer
      have hmem : (asked.id, address) ∈ ingestPeers c h :=
        mem_ingestPeers.mpr ⟨hlisted, asked, haskedRow, haskedPeer, rfl, haddress⟩
      refine .inr ⟨token, htoken, (asked.id, address), hmem, ?_⟩
      rw [flushOn_eq, hacceptor]
      dsimp only
      split
      · next hanswered =>
          obtain ⟨hurl, hroute, haccepts⟩ := acceptor_eq_some_iff.mp hacceptor
          refine mem_flushLocal.mpr ⟨hs, ?_⟩
          by_contra hflushes
          refine hnot ⟨Bool.eq_true_of_not_eq_false hflushes, .inr ⟨token, htoken, _, hmem, hurl,
            hroute, ?_, haccepts⟩⟩
          rw [hanswered]
          decide
      · exact hs

def onlyFails (node : String) : Failures where
  exchange := fun _ => .answered
  flushes := fun n _ => n != node
  inTime := true

theorem exists_asked_of_mem_failed {node s : String} (hne : node ≠ h.id)
    (hs : s ∈ failed c (onlyFails node) h streams) :
    ∃ token, h.process.token = some token ∧ ∃ peer ∈ ingestPeers c h,
      acceptor c token peer.2 = none ∨ acceptor c token peer.2 = some node := by
  have hmem : s ∈ flushEverywhere c (onlyFails node) h streams := by
    unfold failed at hs
    split at hs
    · cases hs
    · exact hs
  rcases mem_flushEverywhere.mp hmem with ⟨-, hhere⟩ | ⟨token, htoken, peer, hpeer, hthere⟩
  · have hflushes := (mem_flushLocal.mp hhere).2
    simp only [onlyFails, bne_eq_false_iff_eq] at hflushes
    exact absurd hflushes.symm hne
  · refine ⟨token, htoken, peer, hpeer, ?_⟩
    rw [flushOn_eq] at hthere
    cases hacceptor : acceptor c token peer.2 with
    | none => exact .inl rfl
    | some m =>
      rw [hacceptor] at hthere
      have hflushes := (mem_flushLocal.mp hthere).2
      simp only [onlyFails, bne_eq_false_iff_eq] at hflushes
      exact .inr (congrArg some hflushes)

/-- **The answers of a refresh report every node that was not flushed exactly when** nothing is to be
flushed, there is no other fresh ingest node, or all of them are asked. -/
theorem reports_iff (c : Cluster) (h : Handler c) (r : Request) :
    Reports c h r ↔ (∀ targets, r.targets = .ok targets → toFlush targets = []) ∨
      (∀ row ∈ c.nodes.rows, isPeer h row = false) ∨ AllAsked c h := by
  constructor
  · intro hreports
    by_cases hnothing : ∀ targets, r.targets = .ok targets → toFlush targets = []
    · exact .inl hnothing
    by_cases halone : ∀ row ∈ c.nodes.rows, isPeer h row = false
    · exact .inr (.inl halone)
    push Not at hnothing halone
    obtain ⟨targets, htargets, hflush⟩ := hnothing
    obtain ⟨s, hs⟩ := exists_mem_of_ne_nil _ hflush
    -- The flush of one peer fails and nothing else does: the answer has to report it.
    have hasked : ∀ row ∈ c.nodes.rows, isPeer h row = true →
        ∃ token, h.process.token = some token ∧ ∃ peer ∈ ingestPeers c h,
          acceptor c token peer.2 = none ∨ acceptor c token peer.2 = some row.id := by
      intro row hrow hpeer
      obtain ⟨hne, hfresh⟩ := isPeer_iff.mp hpeer
      have hanswer : refresh c (onlyFails row.id) h r =
          .shards targets.length (failed c (onlyFails row.id) h (toFlush targets)) := by
        rw [refresh, htargets]
      have hnot : ¬Completes c (onlyFails row.id) h row.id s := by
        rintro ⟨hflushes, -⟩
        simp [onlyFails] at hflushes
      exact exists_asked_of_mem_failed hne
        ((hreports _ targets htargets _ _ hanswer).2 row hrow hfresh s hs hnot)
    obtain ⟨row, hrow, hpeer⟩ := halone
    obtain ⟨token, htoken, peer, hpeers, -⟩ := hasked row hrow (Bool.eq_true_of_not_eq_false hpeer)
    have hlisted : h.listed = true := (mem_ingestPeers.mp hpeers).1
    refine .inr (.inr ⟨hlisted, token, htoken, ?_⟩)
    by_cases hdead : ∃ row ∈ c.nodes.rows, isPeer h row = true ∧
        ∃ address, row.address = some address ∧ acceptor c token address = none
    · exact .inl hdead
    refine .inr fun row hrow hpeer => ?_
    obtain ⟨token', htoken', peer, hpeers, hacceptor⟩ := hasked row hrow hpeer
    cases htoken.symm.trans htoken'
    obtain ⟨-, asked, haskedRow, haskedPeer, -, haddress⟩ := mem_ingestPeers.mp hpeers
    rcases hacceptor with hnone | hsome
    · exact absurd ⟨asked, haskedRow, haskedPeer, peer.2, haddress, hnone⟩ hdead
    · exact ⟨asked, haskedRow, haskedPeer, peer.2, haddress, hsome⟩
  · intro hcond f targets htargets total names hanswer
    have hnames : names = failed c f h (toFlush targets) := by
      rw [refresh, htargets] at hanswer
      cases hanswer
      rfl
    have hreported : ∀ row ∈ c.nodes.rows, IsFreshIngest row → ∀ s ∈ toFlush targets,
        ¬Completes c f h row.id s → s ∈ names := by
      intro row hrow hfresh s hs hnot
      rcases hcond with hnothing | hasked
      · rw [hnothing targets htargets] at hs
        cases hs
      · rw [hnames]
        exact mem_failed_of_not_completes hasked hrow hfresh hs hnot
    refine ⟨fun hzero row hrow hfresh s hs => ?_, hreported⟩
    by_contra hnot
    have hmem := hreported row hrow hfresh s hs hnot
    rw [length_eq_zero_iff.mp hzero] at hmem
    cases hmem

end

/-! ### A registry that cannot be read -/

def freshIngest (id address : String) : NodeRecord := ⟨id, ["ingest"], some address, false, 1000⟩

def pairCluster : Cluster where
  digest := id
  nodes := ⟨[freshIngest "a" "http://a:9200", freshIngest "b" "http://b:9200"], by decide⟩
  process := fun n => if n = "a" ∨ n = "b" then some ⟨true, some "secret"⟩ else none
  isUrl := fun _ => true
  route := fun
    | "http://a:9200" => some "a"
    | "http://b:9200" => some "b"
    | _ => none
  rolesMatch := by
    intro row hrow p hp
    simp only [mem_cons, not_mem_nil, or_false] at hrow
    rcases hrow with rfl | rfl <;> cases hp <;> decide

def unreadHandler : Handler pairCluster := ⟨"a", ⟨true, some "secret"⟩, rfl, false⟩

def refreshAll : Request := ⟨some [⟨"notes", "document"⟩], "_all", none⟩

/-- **Success without a peer's flush.**  Every exchange and every flush that is tried works; the
answer has no failed shard, and the fresh ingest node `b` has not been asked. -/
theorem unread_registry_reports_success :
    refresh pairCluster (onlyFails "") unreadHandler refreshAll = .shards 1 [] ∧
      freshIngest "b" "http://b:9200" ∈ pairCluster.nodes.rows ∧
      IsFreshIngest (freshIngest "b" "http://b:9200") ∧
      ¬Completes pairCluster (onlyFails "") unreadHandler "b" "notes" := by
  refine ⟨by decide +kernel, by decide, ⟨by decide, by decide⟩, ?_⟩
  rintro ⟨-, ⟨hself, -⟩ | ⟨token, -, peer, hpeer, -⟩⟩
  · exact absurd hself (by decide)
  · cases hpeer

end RSearch.Refresh
