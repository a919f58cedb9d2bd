import RSearch.Visibility.Invalidate

/-!
# How stale a search can be

A search reads the list of published splits, then the tombstone list, from a cache that is at most
`TOMBSTONE_CACHE_TTL` old or from the metastore.  So a tombstone committed longer ago than that
should be applied by every search.  Two things can go wrong:

* the leader replaces a split by a rewrite without the hidden versions and purges their tombstones
  *between* the search's two reads: the search goes through the old split with a list that no longer
  has them;
* the age of the cached list counts from the moment it is stored, not from the moment it was read, and
  a reply can be under way for longer than the cache lifetime.

## Main results

* `search_excludes_old` — without these two (and with nothing brought back by a late split, as in
  `Visibility.Applied`), no search shows a version hidden by a tombstone committed more than the cache
  lifetime before it started.
* `old_split_after_purge` — a search whose two reads straddle a swap and a purge shows such a version.
-/

namespace RSearch.Visibility

open List Control Store

/-- **The search is at most the cache lifetime behind**: it shows no version hidden by a tombstone
committed longer before it started. -/
def Search.ExcludesOld (s : Store) (stream : ℤ) (q : Search) : Prop :=
  ∀ row ∈ s.committed, row.streamId = stream → row.createdAt + tombstoneCacheTtl < q.startedAt →
    ∀ d ∈ q.stage.result, below row.toTombstone d = false

instance (s : Store) (stream : ℤ) (q : Search) : Decidable (q.ExcludesOld s stream) :=
  inferInstanceAs (Decidable (∀ row ∈ s.committed, _))

/-- When a reply is stored, it covers the whole table: no tombstone was committed since its last page
was read. -/
def StoredAtOnce (stream : ℤ) (s : State) : Action → Prop
  | .node (.storeList j) => ∀ q ∈ (s.node.searches[j]?).toList, ∀ list ∈ q.stage.reply,
      ∀ row ∈ s.store.tombstones, row.streamId = stream →
        Covered list row.streamId row.docId row.beforeSeq
  | _ => True

instance (stream : ℤ) (s : State) (a : Action) : Decidable (StoredAtOnce stream s a) := by
  unfold StoredAtOnce
  split <;> infer_instance

/-- The condition on a step: no split brings back what a deleted tombstone hid, no tombstone is
deleted while a search needs it, and replies are stored as they were read. -/
def Timely (stream : ℤ) (s : State) (a : Action) : Prop :=
  NothingBroughtBack s a ∧ NoneNeeded s a ∧ StoredAtOnce stream s a

instance (stream : ℤ) (s : State) (a : Action) : Decidable (Timely stream s a) :=
  inferInstanceAs (Decidable (_ ∧ _ ∧ _))

/-! ## The invariant -/

/-- The list covers the bounds committed before the given time, except those of deleted rows. -/
def CoversBefore (s : Store) (stream : ℤ) (list : List Row) (time : ℕ) : Prop :=
  ∀ row ∈ s.committed, row.streamId = stream → row.createdAt < time →
    Covered list row.streamId row.docId row.beforeSeq ∨
      Covered s.removed row.streamId row.docId row.beforeSeq

variable {s s' : Store} {stream : ℤ} {list : List Row} {time : ℕ} {stage : Stage} {q : Search}
  {a : NodeAction}

theorem CoversBefore.mono {time' : ℕ} (h : CoversBefore s stream list time) (hle : time' ≤ time) :
    CoversBefore s stream list time' :=
  fun row hrow hstream hlt => h row hrow hstream (hlt.trans_le hle)

theorem CoversBefore.later (h : CoversBefore s stream list time) (hlater : s.Later s')
    (hle : time ≤ s.clock) : CoversBefore s' stream list time := by
  intro row hrow hstream hlt
  have hold := hlater.mem_of_createdAt_lt hrow (hlt.trans_le hle)
  exact (h row hold hstream hlt).imp_right (Covered.mono hlater.removed)

def Search.horizon (q : Search) : ℕ := q.startedAt - tombstoneCacheTtl

def ShowsNoOld (s : Store) (stream : ℤ) (shown : List Doc) (time : ℕ) : Prop :=
  ∀ row ∈ s.committed, row.streamId = stream → row.createdAt < time → ∀ d ∈ shown,
    below row.toTombstone d = false

theorem ShowsNoOld.later {shown : List Doc} (h : ShowsNoOld s stream shown time) (hlater : s.Later s')
    (hle : time ≤ s.clock) : ShowsNoOld s' stream shown time :=
  fun row hrow hstream hlt =>
    h row (hlater.mem_of_createdAt_lt hrow (hlt.trans_le hle)) hstream hlt

def Stage.Timely (s : Store) (stream : ℤ) (time : ℕ) : Stage → Prop
  | .fetched _ list _ => CoversBefore s stream list time
  | .searching _ _ list shown | .done _ list shown =>
    CoversBefore s stream list time ∧ ShowsNoOld s stream shown time
  | .started | .splitsRead _ | .waiting _ | .refreshing .. | .failed => True

theorem Stage.Timely.later (h : stage.Timely s stream time) (hlater : s.Later s') (hle : time ≤ s.clock) :
    stage.Timely s' stream time := by
  cases stage with
  | started | splitsRead | waiting | refreshing | failed => trivial
  | fetched splits list rebuiltAt => exact CoversBefore.later h hlater hle
  | searching splits todo list shown | done splits list shown =>
    exact ⟨h.1.later hlater hle, h.2.later hlater hle⟩

structure Punctual (stream : ℤ) (s : State) : Prop extends Covering stream s where
  cache : ∀ c time, s.node.cache = some c → c.fetchedAt = some time →
    time ≤ s.store.clock ∧ CoversBefore s.store stream c.entries time
  timely : ∀ q ∈ s.node.searches, q.stage.Timely s.store stream q.horizon

theorem Punctual.init (stream : ℤ) : Punctual stream State.init where
  toCovering := .init stream
  cache := fun _ _ h => by cases h
  timely := fun _ h => by cases h

theorem SearchOk.horizon_le (h : SearchOk s stream q) : q.horizon ≤ s.clock :=
  (Nat.sub_le _ _).trans h.started

theorem ListOk.coversBefore (hl : ListOk s stream list) (hs : s.Ok) {limit : ℕ}
    (hshort : (s.tombstonesSince stream (Feed.last seqOf list) limit).length < limit) (time : ℕ) :
    CoversBefore s stream (list ++ s.tombstonesSince stream (Feed.last seqOf list) limit) time := by
  rintro row hrow rfl -
  exact (hs.covered_committed hrow).imp_left (hl.covered_of_short hshort)

theorem coversBefore_of_table (hs : s.Ok) (h : ∀ row ∈ s.tombstones, row.streamId = stream →
      Covered list row.streamId row.docId row.beforeSeq) (time : ℕ) :
    CoversBefore s stream list time := by
  rintro row hrow rfl -
  refine (hs.covered_committed hrow).imp_left ?_
  rintro ⟨row', hrow', hstream, hdoc, hle⟩
  obtain ⟨row'', hrow'', hstream', hdoc', hle'⟩ := h row' hrow' hstream
  exact ⟨row'', hrow'', hstream'.trans hstream, hdoc'.trans hdoc, hle.trans hle'⟩

theorem Punctual.fresh {s : State} (h : Punctual stream s)
    (hfresh : s.node.freshEntries s.store.clock = some list) (hq : q.startedAt ≤ s.store.clock) :
    CoversBefore s.store stream list q.horizon := by
  obtain ⟨c, time, hc, rfl, htime, hlt⟩ := Node.freshEntries_eq hfresh
  refine (h.cache c time hc htime).2.mono ?_
  rw [Search.horizon]
  omega

theorem Punctual.moves {s : State} (h : Punctual stream s) {j : ℕ} {cache : Option Cache}
    {readers : String → Option ExclusionSet} (hq : q ∈ s.node.searches)
    (hm : Moves stream s.store s.node j q a stage cache readers) :
    stage.Timely s.store stream q.horizon := by
  have hstage := h.timely q hq
  have hqok := h.node.searches q hq
  cases hm with
  | readSplits | miss | refresh | page | cancel => trivial
  | hit hwas hfresh => exact ⟨h.fresh hfresh hqok.started, fun _ _ _ _ _ hd => by cases hd⟩
  | lastPage hwas hshort =>
    have hlist := hqok.list
    rw [hwas] at hlist
    exact ListOk.coversBefore hlist h.store hshort _
  | store hwas =>
    rw [hwas] at hstage
    exact ⟨hstage, fun _ _ _ _ _ hd => by cases hd⟩
  | @searchSplit splits todo list shown split hwas hmem =>
    have hlist := hqok.list
    have hsettled := h.held q hq
    have hsub := hqok.todo
    rw [hwas] at hstage hlist hsettled hsub
    have hheld := hqok.splits split (hwas ▸ hsub hmem)
    refine ⟨hstage.1, fun row hrow hstream hlt d hd => ?_⟩
    rcases mem_append.mp hd with hold | hnew
    · exact hstage.2 row hrow hstream hlt d hold
    · rw [Bool.eq_false_iff]
      intro hbelow
      rcases hstage.1 row hrow hstream hlt with hcov | hcov
      · exact h.shownDocs_not_below hheld (hsettled split hmem) hlist hcov hnew (below_iff.mp hbelow)
      · -- the covering row was deleted, and the split is settled
        obtain ⟨row', hrow', hstream', hbelow'⟩ := hcov.below hbelow
        exact (hsettled split hmem).not_excused hheld.stream_eq (mem_of_mem_shownDocs hnew)
          ⟨row', hrow', hstream'.trans hstream, hbelow'⟩
  | finish hwas =>
    rw [hwas] at hstage
    exact hstage

theorem Punctual.nodeStep {s : State} (h : Punctual stream s) {node : Node}
    (hcond : StoredAtOnce stream s (.node a)) (hnode : NodeStep stream s.store s.node a node) :
    (∀ c time, node.cache = some c → c.fetchedAt = some time →
      time ≤ s.store.clock ∧ CoversBefore s.store stream c.entries time) ∧
      ∀ q ∈ node.searches, q.stage.Timely s.store stream q.horizon := by
  cases hnode with
  | start =>
    refine ⟨h.cache, fun q hq => ?_⟩
    rcases mem_append.mp hq with hold | hnew
    · exact h.timely q hold
    · rw [mem_singleton.mp hnew]
      trivial
  | @move a j q stage cache readers hq hm =>
    have hmem := mem_of_getElem? hq
    have htimely := h.moves hmem hm
    refine ⟨?_, fun q' hq' => ?_⟩
    · cases hm with
      | store hwas =>
        intro c time hc htime
        cases hc
        cases htime
        refine ⟨le_rfl, coversBefore_of_table h.store ?_ _⟩
        refine hcond q (by rw [hq]; exact mem_singleton_self q) _ ?_
        rw [hwas]
        exact mem_singleton_self _
      | _ => exact h.cache
    · rcases mem_or_eq_of_mem_set hq' with hold | rfl
      · exact h.timely q' hold
      · exact htimely
  | evict splitId => exact ⟨h.cache, h.timely⟩
  | clear =>
    grind [timely]
  | answer hk =>
    refine ⟨fun c time hc htime => ?_, h.timely⟩
    obtain ⟨c₀, hc₀, rfl⟩ := Option.map_eq_some_iff.mp hc
    split at htime
    · cases htime
    · next hnone =>
        rw [if_neg hnone]
        exact h.cache c₀ time hc₀ htime

theorem Punctual.step {grace : ℕ} {s s' : State} {a : Action} (h : Punctual stream s)
    (hcond : Timely stream s a) (hstep : step grace stream s a = some s') : Punctual stream s' := by
  have hcovering := h.toCovering.step hcond.1 hcond.2.1 hstep
  have hlater := (h.toBase.step hstep).2
  have hcache : ∀ c time, s.node.cache = some c → c.fetchedAt = some time →
      time ≤ s'.store.clock ∧ CoversBefore s'.store stream c.entries time := by
    intro c time hc htime
    obtain ⟨hle, hcov⟩ := h.cache c time hc htime
    exact ⟨hle.trans hlater.clock, hcov.later hlater hle⟩
  have htimely : ∀ q ∈ s.node.searches, q.stage.Timely s'.store stream q.horizon :=
    fun q hq => (h.timely q hq).later hlater (h.node.searches q hq).horizon_le
  obtain ⟨b, store, rfl, -, rfl⟩ | ⟨b, store, leader, rfl, -, rfl⟩ | ⟨b, node, rfl, hnode, rfl⟩ |
    ⟨items, gap, rfl, rfl⟩ := step_cases hstep
  · exact ⟨hcovering, hcache, htimely⟩
  · exact ⟨hcovering, hcache, htimely⟩
  · obtain ⟨hcache, htimely⟩ := h.nodeStep hcond.2.2 (nodeStep_cases hnode)
    exact ⟨hcovering, hcache, htimely⟩
  · exact ⟨hcovering, hcache, htimely⟩

/-- **No search is more than the cache lifetime behind**, along every run whose steps meet the
condition: whatever the leader replaces and purges around it, a search shows no version hidden by a
tombstone committed longer than the cache lifetime before it started. -/
theorem search_excludes_old {grace : ℕ} {stream : ℤ} {as : List Action} {s : State}
    (halong : Runs.Along (step grace stream) (Timely stream) .init as)
    (hrun : Runs.run (step grace stream) .init as = some s) :
    ∀ q ∈ s.node.searches, q.ExcludesOld s.store stream := by
  have hinv : Punctual stream s :=
    Runs.run_invariant _ (fun _ _ _ h hcond hstep => h.step hcond hstep) (.init stream) halong hrun
  intro q hq row hrow hstream hlt d hd
  have htimely := hinv.timely q hq
  cases hstage : q.stage with
  | done splits list shown =>
    rw [hstage] at htimely hd
    refine htimely.2 row hrow hstream ?_ d hd
    rw [Search.horizon]
    omega
  | started | splitsRead | waiting | refreshing | fetched | searching | failed =>
    rw [hstage] at hd
    cases hd

/-! ## Runs -/

def splitS : SplitRow := publishedRow "S" [firstA, ⟨1, some "c", 6⟩]

/-- The leader rewrites split `S` without `a`, swaps, and purges the tombstone of `a`. -/
def compactAndPurge : List Action :=
  listFor splitS ++ [.leader (.rebuild [splitS] (fun _ => "") "T"), .leader .swap, .leader .finish,
    .leader (.purge [1])]

def deletedLongAgo : List Action :=
  ingest "S" splitS.docs ++ [tombstone "a" 10, .writer (.tick 4000000)]

def straddled : List Action :=
  deletedLongAgo ++ [.node .start, .node (.readSplits 0)] ++ compactAndPurge ++
    (NodeAction.checkCache 0 :: .acquire 0 :: .readPage 0 :: .storeList 0 ::
      searches 0 splitS).map .node

/-- **A search that read the split list before the swap and the tombstones after the purge shows a
document deleted long ago.** -/
theorem old_split_after_purge :
    ¬ ∀ (as : List Action) (s : State), Runs.run (step 3600000 1) .init as = some s →
      ∀ q ∈ s.node.searches, q.ExcludesOld s.store 1 := by
  intro h
  obtain ⟨s, hrun, q, hq, hnot⟩ : ∃ s, Runs.run (step 3600000 1) .init straddled = some s ∧
      ∃ q ∈ s.node.searches, ¬q.ExcludesOld s.store 1 := by
    decide +kernel
  exact hnot (h _ s hrun q hq)

/-- The same parties, with the purge after the search has gone through the old split. -/
def purgedAfter : List Action :=
  deletedLongAgo ++ [.node .start, .node (.readSplits 0)] ++
    (NodeAction.checkCache 0 :: .acquire 0 :: .readPage 0 :: .storeList 0 ::
      searches 0 splitS).map .node ++ compactAndPurge

theorem search_excludes_old_purgedAfter :
    ∃ s, Runs.run (step 3600000 1) .init purgedAfter = some s ∧ s.store.removed.length = 1 ∧
      ∀ q ∈ s.node.searches, q.ExcludesOld s.store 1 := by
  obtain ⟨s, hrun, hpurged⟩ : ∃ s, Runs.run (step 3600000 1) .init purgedAfter = some s ∧
      s.store.removed.length = 1 := by
    decide +kernel
  exact ⟨s, hrun, hpurged, search_excludes_old (by decide +kernel) hrun⟩

end RSearch.Visibility
