import RSearch.Visibility.Store

/-!
# Writers, the control leader and a search node

The parties that together decide what a search shows, around the metastore of `Visibility.Store`:

* **writers** (`Writer`) — ingest nodes stage and publish splits of new documents, write paths upsert
  tombstones, and splits or whole indexes are dropped;
* **the control leader** (`Leader`, `leaderStep`) — one tick at a time: read the splits to rewrite,
  page the stream's tombstones out of the metastore, then rewrite groups of those splits
  (`rebuild_splits`, behind `merge_job`, `compact_split` and the schema upgrade) or record that a
  split has nothing hidden, and only after that purge tombstones.  A tick may end anywhere (`finish`);
* **a search node** (`Node`, `nodeStep`) — its tombstone cache for one document-mode stream, the
  single-flight refresh of it, its open readers with their exclusion sets, and any number of searches
  in flight.  `SearchService::search` reads the split list first and the tombstone list second.

Every action is one transaction, one reply or one stretch of code without an `await`.  In particular
a refresh reads its last page in one action and stores the result in a later one, and a local write
commits its tombstones in one action and invalidates the cache in a later one.

Two fields of a search are history: when it started, and the bounds of the local writes answered
before that.
-/

namespace RSearch.Visibility

open Control

def tombstonePage : ℕ := 10000

def tombstoneCacheTtl : ℕ := 1000

def tombstoneRebuildEvery : ℕ := 300000

abbrev seqOf (row : Row) : ℤ := row.seq

/-! ## Writers -/

inductive Writer where
  /-- Time passes. -/
  | tick (millis : ℕ)
  /-- A write path somewhere commits tombstones. -/
  | upsert (items : List NewTombstone) (gap : ℕ)
  /-- `flush_inner` stages a split of new documents. -/
  | stage (splitId : String) (streamId : ℤ) (docs : List Doc)
  /-- `publish_split`. -/
  | publish (splitId : String)
  /-- Retention or the sweep of staged orphans. -/
  | markForDelete (splitIds : List String)
  /-- The index is deleted. -/
  | retire (streamId : ℤ)
deriving DecidableEq

def Store.writer (s : Store) : Writer → Option Store
  | .tick millis => some { s with clock := s.clock + millis }
  | .upsert items gap => some (s.upsertTombstones items gap)
  | .stage splitId streamId docs =>
    if docs = [] then none
    else (s.splits.stageSplit splitId streamId 0 docs).map s.withSplits
  | .publish splitId =>
    let staged := fun r : SplitRow => r.splitId == splitId && r.state == .staged
    if s.splits.rows.any staged then some (s.withSplits (s.splits.setState staged .published))
    else none
  | .markForDelete splitIds => some (s.withSplits (s.splits.markSplitsForDelete splitIds))
  | .retire streamId => some (s.retireStream streamId)

/-! ## The control leader -/

def rewriteReader (list : List Row) (source : SplitRow) : ExclusionSet :=
  applyTombstones source.docs (openReader source) (list.map Row.toTombstone)

def keptDocs (list : List Row) (source : SplitRow) : List Doc :=
  source.docs.filter fun d => decide (d ∉ (rewriteReader list source).excluded)

def rebuildDocs (fresh : ℕ → String) (list : List Row) (group : List SplitRow) : List Doc :=
  (group.flatMap (keptDocs list)).mapIdx (identity fresh)

inductive Leader where
  | idle
  /-- The splits to rewrite are selected; the stream's tombstones are being paged in. -/
  | listing (streamId : ℤ) (sources : List SplitRow) (list : List Row)
  /-- The tombstone list is complete. -/
  | listed (streamId : ℤ) (sources : List SplitRow) (list : List Row)
  /-- A rewrite of `group` is staged; its swap is next. -/
  | staged (streamId : ℤ) (sources : List SplitRow) (list : List Row) (group : List SplitRow)
      (newId : String)

inductive LeaderAction where
  /-- A job picks published splits of a stream. -/
  | select (streamId : ℤ) (sources : List SplitRow)
  /-- One page of `stream_tombstones`. -/
  | page
  /-- `stream_tombstones` of a log stream: there are none. -/
  | logMode
  /-- `rebuild_splits` of some of the selected splits, up to the staged row. -/
  | rebuild (group : List SplitRow) (fresh : ℕ → String) (newId : String)
  /-- `swap_splits`. -/
  | swap
  /-- `compact_split` found nothing hidden. -/
  | markApplied (source : SplitRow)
  /-- The job is over, or it failed, or another node leads from now on. -/
  | finish
  /-- `tombstone_purge_job`. -/
  | purge (picked : List ℤ)

def Store.Selectable (s : Store) (streamId : ℤ) (sources : List SplitRow) : Prop :=
  sources.Nodup ∧ ∀ r ∈ sources, r ∈ s.splits.rows ∧ r.state = .published ∧ r.streamId = streamId

instance (s : Store) (streamId : ℤ) (sources : List SplitRow) :
    Decidable (s.Selectable streamId sources) :=
  inferInstanceAs (Decidable (_ ∧ _))

def Store.FreshIds (s : Store) (fresh : ℕ → String) (list : List Row) (group : List SplitRow) : Prop :=
  ∀ p ∈ (group.flatMap (keptDocs list)).zipIdx, p.1.id = none →
    ∀ row ∈ s.committed, fresh p.2 ≠ row.docId

instance (s : Store) (fresh : ℕ → String) (list : List Row) (group : List SplitRow) :
    Decidable (s.FreshIds fresh list group) :=
  inferInstanceAs (Decidable (∀ p ∈ _, _))

def leaderStep (grace : ℕ) (s : Store) (l : Leader) : LeaderAction → Option (Store × Leader)
  | .select streamId sources =>
    match l with
    | .idle => if s.Selectable streamId sources then some (s, .listing streamId sources []) else none
    | _ => none
  | .page =>
    match l with
    | .listing streamId sources list =>
      let page := s.tombstonesSince streamId (Feed.last seqOf list) tombstonePage
      if page.length < tombstonePage then some (s, .listed streamId sources (list ++ page))
      else some (s, .listing streamId sources (list ++ page))
    | _ => none
  | .logMode =>
    match l with
    | .listing streamId sources [] => some (s, .listed streamId sources [])
    | _ => none
  | .rebuild group fresh newId =>
    match l with
    | .listed streamId sources list =>
      let docs := rebuildDocs fresh list group
      if group.Nodup ∧ group ⊆ sources ∧ s.FreshIds fresh list group then
        if docs = [] then
          some (s.withSplits (s.splits.markSplitsForDelete (group.map SplitRow.splitId)),
            .listed streamId sources list)
        else
          (s.splits.stageSplit newId streamId (Feed.last seqOf list) docs).map fun splits =>
            (s.withSplits splits, .staged streamId sources list group newId)
      else none
    | _ => none
  | .swap =>
    match l with
    | .staged streamId sources list group newId =>
      match s.splits.swapSplits (group.map SplitRow.splitId) newId with
      | some splits => some (s.withSplits splits, .listed streamId sources list)
      | none => some (s, .listed streamId sources list)
    | _ => none
  | .markApplied source =>
    match l with
    | .listed streamId sources list =>
      if source ∈ sources ∧ (rewriteReader list source).excluded = [] then
        some (s.withSplits (s.splits.markTombstonesApplied source.splitId (Feed.last seqOf list)),
          .listed streamId sources list)
      else none
    | _ => none
  | .finish => some (s, .idle)
  | .purge picked =>
    match l with
    | .idle => some (s.purgeTombstones grace picked, .idle)
    | _ => none

/-! ## A search node -/

structure Cache where
  entries : List Row
  fetchedAt : Option ℕ
  rebuiltAt : ℕ

inductive Stage where
  | started
  /-- `splits_for_query` has answered. -/
  | splitsRead (splits : List SplitRow)
  /-- The cached list was stale; waiting for the refresh gate. -/
  | waiting (splits : List SplitRow)
  /-- Holding the gate and paging: `list` is the kept part of the cached list and the pages so far. -/
  | refreshing (splits : List SplitRow) (list : List Row) (rebuiltAt : ℕ)
  /-- Holding the gate: the last page has been read, its reply is not stored yet. -/
  | fetched (splits : List SplitRow) (list : List Row) (rebuiltAt : ℕ)
  /-- The splits of `todo` are still to be searched. -/
  | searching (splits todo : List SplitRow) (list : List Row) (shown : List Doc)
  | done (splits : List SplitRow) (list : List Row) (shown : List Doc)
  /-- The request was cancelled or failed. -/
  | failed

def Stage.holdsGate : Stage → Bool
  | .refreshing .. | .fetched .. => true
  | _ => false

structure Search where
  /-- History: when the search started. -/
  startedAt : ℕ
  /-- History: the bounds of the local writes answered before that. -/
  owed : List NewTombstone
  stage : Stage

structure Node where
  cache : Option Cache
  /-- The open readers' exclusion sets, by split. -/
  readers : String → Option ExclusionSet
  searches : List Search
  /-- Local writes whose tombstones are committed, before they invalidate the cache. -/
  unanswered : List (List NewTombstone)
  /-- History: the bounds of the local writes that were answered. -/
  answered : List NewTombstone

def Node.init : Node where
  cache := none
  readers := fun _ => none
  searches := []
  unanswered := []
  answered := []

inductive NodeAction where
  | start
  | readSplits (j : ℕ)
  /-- The first look at the cache. -/
  | checkCache (j : ℕ)
  /-- The gate is taken and the cache looked at again. -/
  | acquire (j : ℕ)
  | readPage (j : ℕ)
  | storeList (j : ℕ)
  /-- One split of the list is searched. -/
  | searchSplit (j : ℕ) (split : SplitRow)
  | finish (j : ℕ)
  | cancel (j : ℕ)
  /-- The LRU cache drops a reader. -/
  | evict (splitId : String)
  /-- The map of cached lists is cleared. -/
  | clear
  /-- A local write invalidates the cache and answers its request. -/
  | answer (k : ℕ)

/-- The cached entries, when they are fresh: `fetched_at.elapsed() < TOMBSTONE_CACHE_TTL`. -/
def Node.freshEntries (n : Node) (clock : ℕ) : Option (List Row) :=
  n.cache.bind fun c =>
    if c.fetchedAt.any fun t => decide (clock < t + tombstoneCacheTtl) then some c.entries else none

/-- What a refresh starts from: the cached list, unless there is none or it is due for a rebuild. -/
def Node.refreshBase (n : Node) (clock : ℕ) : List Row × ℕ :=
  match n.cache with
  | some c =>
    if c.rebuiltAt + tombstoneRebuildEvery ≤ clock then ([], clock) else (c.entries, c.rebuiltAt)
  | none => ([], clock)

def Store.published (s : Store) (streamId : ℤ) : List SplitRow :=
  s.splits.rows.filter fun r => r.streamId == streamId && r.state == .published

def Node.reader (n : Node) (split : SplitRow) : ExclusionSet :=
  (n.readers split.splitId).getD (openReader split)

/-- Whether the search applies its list to the split: not when the list is empty, and not to a split
of the legacy layout. -/
def applies (list : List Row) (split : SplitRow) : Bool :=
  !list.isEmpty && (seqMin split.docs).isSome

def Node.readerAfter (n : Node) (list : List Row) (split : SplitRow) : ExclusionSet :=
  if applies list split then
    applyTombstones split.docs (n.reader split) (list.map Row.toTombstone)
  else n.reader split

def Node.shownDocs (n : Node) (list : List Row) (split : SplitRow) : List Doc :=
  if applies list split then
    split.docs.filter fun d => decide (d ∉ (n.readerAfter list split).excluded)
  else split.docs

def Node.withStage (n : Node) (j : ℕ) (q : Search) (stage : Stage) : Node :=
  { n with searches := n.searches.set j { q with stage } }

def nodeStep (stream : ℤ) (s : Store) (n : Node) : NodeAction → Option Node
  | .start => some { n with searches := n.searches ++ [⟨s.clock, n.answered, .started⟩] }
  | .readSplits j =>
    n.searches[j]?.bind fun q =>
      match q.stage with
      | .started => some (n.withStage j q (.splitsRead (s.published stream)))
      | _ => none
  | .checkCache j =>
    n.searches[j]?.bind fun q =>
      match q.stage with
      | .splitsRead splits =>
        match n.freshEntries s.clock with
        | some list => some (n.withStage j q (.searching splits splits list []))
        | none => some (n.withStage j q (.waiting splits))
      | _ => none
  | .acquire j =>
    n.searches[j]?.bind fun q =>
      match q.stage with
      | .waiting splits =>
        if n.searches.any fun q => q.stage.holdsGate then none
        else
          match n.freshEntries s.clock with
          | some list => some (n.withStage j q (.searching splits splits list []))
          | none =>
            some (n.withStage j q (.refreshing splits (n.refreshBase s.clock).1
              (n.refreshBase s.clock).2))
      | _ => none
  | .readPage j =>
    n.searches[j]?.bind fun q =>
      match q.stage with
      | .refreshing splits list rebuiltAt =>
        let page := s.tombstonesSince stream (Feed.last seqOf list) tombstonePage
        if page.length < tombstonePage then
          some (n.withStage j q (.fetched splits (list ++ page) rebuiltAt))
        else some (n.withStage j q (.refreshing splits (list ++ page) rebuiltAt))
      | _ => none
  | .storeList j =>
    n.searches[j]?.bind fun q =>
      match q.stage with
      | .fetched splits list rebuiltAt =>
        some { n.withStage j q (.searching splits splits list []) with
          cache := some ⟨list, some s.clock, rebuiltAt⟩ }
      | _ => none
  | .searchSplit j split =>
    n.searches[j]?.bind fun q =>
      match q.stage with
      | .searching splits todo list shown =>
        if split ∈ todo then
          some { n.withStage j q (.searching splits (todo.erase split) list
              (shown ++ n.shownDocs list split)) with
            readers := Function.update n.readers split.splitId (some (n.readerAfter list split)) }
        else none
      | _ => none
  | .finish j =>
    n.searches[j]?.bind fun q =>
      match q.stage with
      | .searching splits [] list shown => some (n.withStage j q (.done splits list shown))
      | _ => none
  | .cancel j =>
    n.searches[j]?.bind fun q =>
      match q.stage with
      | .done .. => none
      | _ => some (n.withStage j q .failed)
  | .evict splitId => some { n with readers := Function.update n.readers splitId none }
  | .clear => some { n with cache := none }
  | .answer k =>
    n.unanswered[k]?.bind fun items =>
      some { n with
        cache := n.cache.map fun c =>
          if items.any fun t => t.streamId == stream then { c with fetchedAt := none } else c
        unanswered := n.unanswered.eraseIdx k
        answered := n.answered ++ items }

/-! ## The cluster -/

structure State where
  store : Store
  leader : Leader
  node : Node

def State.init : State := ⟨Store.init, .idle, Node.init⟩

inductive Action where
  | writer (a : Writer)
  | leader (a : LeaderAction)
  | node (a : NodeAction)
  /-- A write on the search node commits its tombstones. -/
  | write (items : List NewTombstone) (gap : ℕ)

/-- One action of one party, on the cluster with purge grace `grace` and the searched stream. -/
def step (grace : ℕ) (stream : ℤ) (s : State) : Action → Option State
  | .writer a => (s.store.writer a).map fun store => { s with store }
  | .leader a =>
    (leaderStep grace s.store s.leader a).map fun p => { s with store := p.1, leader := p.2 }
  | .node a => (nodeStep stream s.store s.node a).map fun node => { s with node }
  | .write items gap =>
    some { s with
      store := s.store.upsertTombstones items gap
      node := { s.node with unanswered := s.node.unanswered ++ [items] } }

end RSearch.Visibility
