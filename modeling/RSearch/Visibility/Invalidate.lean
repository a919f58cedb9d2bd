import RSearch.Visibility.Covering

/-!
# Read your own deletes

A write on the search node commits its tombstones, then drops the freshness of the cached list
(`invalidate_tombstone_caches`), then answers.  A refresh in flight may have read its last page before
the commit and store it, as fresh, after the invalidation.
-/

namespace RSearch.Visibility

open List Option Control Store Subset

def NewTombstone.hides (t : NewTombstone) (d : Doc) : Prop :=
  d.id = some t.docId ∧ d.seq < t.beforeSeq

instance (t : NewTombstone) (d : Doc) : Decidable (t.hides d) :=
  inferInstanceAs (Decidable (_ ∧ _))

def CoversAll (stream : ℤ) (list : List Row) (items : List NewTombstone) : Prop :=
  ∀ t ∈ items, t.streamId = stream → Covered list t.streamId t.docId t.beforeSeq

instance (stream : ℤ) (list : List Row) (items : List NewTombstone) :
    Decidable (CoversAll stream list items) :=
  inferInstanceAs (Decidable (∀ t ∈ items, _))

/-- **The search excludes what it owes**: no version hidden by a local write answered before it
started is among its results. -/
def Search.ExcludesOwed (stream : ℤ) (q : Search) : Prop :=
  ∀ t ∈ q.owed, t.streamId = stream → ∀ d ∈ q.stage.result, ¬ t.hides d

instance (stream : ℤ) (q : Search) : Decidable (q.ExcludesOwed stream) :=
  inferInstanceAs (Decidable (∀ t ∈ q.owed, _))

/-- When a local write invalidates the cache, every reply still on its way covers its bounds. -/
def RepliesCover (stream : ℤ) (s : State) : Action → Prop
  | .node (.answer k) => ∀ q ∈ s.node.searches, ∀ list ∈ q.stage.reply,
      CoversAll stream list ((s.node.unanswered[k]?).getD [])
  | _ => True

instance (stream : ℤ) (s : State) (a : Action) : Decidable (RepliesCover stream s a) := by
  unfold RepliesCover
  split <;> infer_instance

/-! ## The invariant -/

/-- What a search's stage has to cover: everything answered so far while its refresh is on its way
to the cache, what the search owes once it has its list. -/
def Stage.Covers (stream : ℤ) (answered owed : List NewTombstone) : Stage → Prop
  | .fetched _ list _ => CoversAll stream list answered
  | .searching _ _ list shown | .done _ list shown => CoversAll stream list owed ∧
      ∀ t ∈ owed, t.streamId = stream → ∀ d ∈ shown, ¬ t.hides d
  | .started | .splitsRead _ | .waiting _ | .refreshing .. | .failed => True

structure Search.Owes (stream : ℤ) (answered : List NewTombstone) (q : Search) : Prop where
  owed : q.owed ⊆ answered
  stage : q.stage.Covers stream answered q.owed

structure Answering (stream : ℤ) (s : State) : Prop extends Covering stream s where
  removed : s.store.removed = []
  unanswered : ∀ items ∈ s.node.unanswered, items ⊆ s.store.issued
  answered : s.node.answered ⊆ s.store.issued
  cache : ∀ c, s.node.cache = some c → c.fetchedAt ≠ none → CoversAll stream c.entries s.node.answered
  owes : ∀ q ∈ s.node.searches, q.Owes stream s.node.answered

theorem Answering.init (stream : ℤ) : Answering stream State.init where
  toCovering := .init stream
  removed := rfl
  unanswered := fun _ h => by cases h
  answered := fun _ h => by cases h
  cache := fun _ h => by cases h
  owes := fun _ h => by cases h

variable {stream : ℤ} {list : List Row} {s s' : State} {a : NodeAction} {stage : Stage} {grace : ℕ}

theorem CoversAll.mono {items items' : List NewTombstone} (h : CoversAll stream list items)
    (hsub : items' ⊆ items) : CoversAll stream list items' :=
  fun t ht => h t (hsub ht)

theorem Answering.coversAll_of_short (h : Answering stream s) (hlist : ListOk s.store stream list)
    (hshort : (s.store.tombstonesSince stream (Feed.last seqOf list) tombstonePage).length < tombstonePage) :
    CoversAll stream (list ++ s.store.tombstonesSince stream (Feed.last seqOf list) tombstonePage)
      s.node.answered := by
  rintro t ht rfl
  rcases h.store.covered t (h.answered ht) with hcov | ⟨row, hrow, -⟩
  · exact hlist.covered_of_short hshort hcov
  · rw [h.removed] at hrow
    cases hrow

theorem Answering.fresh (h : Answering stream s) {clock : ℕ}
    (hfresh : s.node.freshEntries clock = some list) : CoversAll stream list s.node.answered := by
  obtain ⟨c, t, hc, rfl, ht, -⟩ := Node.freshEntries_eq hfresh
  exact h.cache c hc (by rw [ht]; exact some_ne_none t)

theorem Answering.moves (h : Answering stream s) {j : ℕ} {q : Search} {cache : Option Cache}
    {readers : String → Option ExclusionSet} (hq : q ∈ s.node.searches)
    (hm : Moves stream s.store s.node j q a stage cache readers) :
    stage.Covers stream s.node.answered q.owed := by
  obtain ⟨howed, hstage⟩ := h.owes q hq
  have hqok := h.node.searches q hq
  cases hm with
  | readSplits | miss | refresh | page | cancel => trivial
  | hit hwas hfresh => exact ⟨(h.fresh hfresh).mono howed, fun _ _ _ _ hd => by cases hd⟩
  | lastPage hwas hshort =>
    have hlist := hqok.list
    rw [hwas] at hlist
    exact h.coversAll_of_short hlist hshort
  | store hwas =>
    rw [hwas] at hstage
    exact ⟨CoversAll.mono hstage howed, fun _ _ _ _ hd => by cases hd⟩
  | @searchSplit splits todo list shown split hwas hmem =>
    have hlist := hqok.list
    have hsettled := h.held q hq
    have hsub := hqok.todo
    rw [hwas] at hstage hlist hsettled hsub
    refine ⟨hstage.1, fun t ht hstream d hd => ?_⟩
    rcases mem_append.mp hd with hold | hnew
    · exact hstage.2 t ht hstream d hold
    · exact h.shownDocs_not_below (hqok.splits split (hwas ▸ hsub hmem)) (hsettled split hmem)
        hlist (hstage.1 t ht hstream) hnew
  | finish hwas =>
    rw [hwas] at hstage
    exact hstage

theorem Stage.Covers.answered {answered items owed : List NewTombstone}
    (h : stage.Covers stream answered owed) (hreply : ∀ list ∈ stage.reply, CoversAll stream list items) :
    stage.Covers stream (answered ++ items) owed := by
  cases stage with
  | fetched splits list rebuiltAt =>
    intro t ht
    rcases mem_append.mp ht with hold | hnew
    · exact h t hold
    · exact hreply list (mem_singleton_self _) t hnew
  | started | splitsRead | waiting | refreshing | searching | done | failed => exact h

theorem Answering.nodeStep (h : Answering stream s) {node : Node}
    (hcond : RepliesCover stream s (.node a)) (hnode : NodeStep stream s.store s.node a node) :
    (∀ items ∈ node.unanswered, items ⊆ s.store.issued) ∧ node.answered ⊆ s.store.issued ∧
      (∀ c, node.cache = some c → c.fetchedAt ≠ none → CoversAll stream c.entries node.answered) ∧
      ∀ q ∈ node.searches, q.Owes stream node.answered := by
  cases hnode with
  | start =>
    refine ⟨h.unanswered, h.answered, h.cache, fun q hq => ?_⟩
    rcases mem_append.mp hq with hold | hnew
    · exact h.owes q hold
    · rw [mem_singleton.mp hnew]
      exact ⟨refl _, trivial⟩
  | @move a j q stage cache readers hq hm =>
    have hmem := mem_of_getElem? hq
    have hcovers := h.moves hmem hm
    refine ⟨h.unanswered, h.answered, ?_, fun q' hq' => ?_⟩
    · cases hm with
      | store hwas =>
        intro c hc _
        have hstage := (h.owes q hmem).stage
        rw [hwas] at hstage
        cases hc
        exact hstage
      | _ => exact h.cache
    · rcases mem_or_eq_of_mem_set hq' with hold | rfl
      · exact h.owes q' hold
      · exact ⟨(h.owes q hmem).owed, hcovers⟩
  | evict splitId => exact ⟨h.unanswered, h.answered, h.cache, h.owes⟩
  | clear =>
    grind [owes, unanswered, answered]
  | @answer k items hk =>
    have hitems : items ⊆ s.store.issued := h.unanswered items (mem_of_getElem? hk)
    refine ⟨fun b hb => h.unanswered b (mem_of_mem_eraseIdx hb),
      append_subset.mpr ⟨h.answered, hitems⟩, fun c hc hfetched => ?_, fun q hq => ?_⟩
    · obtain ⟨c₀, hc₀, rfl⟩ := map_eq_some_iff.mp hc
      split at hfetched
      · exact absurd rfl hfetched
      · next hnone =>
          -- the write has no bound of this stream
          rw [if_neg hnone]
          intro t ht hstream
          rcases mem_append.mp ht with hold | hnew
          · exact h.cache c₀ hc₀ hfetched t hold hstream
          · grind
    · have howes := h.owes q hq
      have hreply := hcond q hq
      rw [hk, getD_some] at hreply
      exact ⟨fun t ht => mem_append_left _ (howes.owed ht), howes.stage.answered hreply⟩

def OrdinaryCovering (stream : ℤ) (s : State) (a : Action) : Prop :=
  a.Ordinary ∧ RepliesCover stream s a

instance (stream : ℤ) (s : State) (a : Action) : Decidable (OrdinaryCovering stream s a) :=
  inferInstanceAs (Decidable (_ ∧ _))

theorem issued_subset {a : Action} (hstep : step grace stream s a = some s') :
    s.store.issued ⊆ s'.store.issued := by
  obtain ⟨b, store, -, hw, rfl⟩ | ⟨b, store, leader, -, hl, rfl⟩ | ⟨b, node, -, -, rfl⟩ |
    ⟨items, gap, -, rfl⟩ := step_cases hstep
  · cases hw with
    | upsert items gap => exact subset_append_left _ _
    | _ => exact refl _
  · exact hl.issued ▸ refl _
  · exact refl _
  · exact subset_append_left _ _

theorem Answering.step {a : Action} (h : Answering stream s) (hcond : OrdinaryCovering stream s a)
    (hstep : step grace stream s a = some s') : Answering stream s' := by
  obtain ⟨hcovering, hremoved⟩ := Covering.step_ordinary ⟨h.toCovering, h.removed⟩ hcond.1 hstep
  have hissued := issued_subset hstep
  obtain ⟨b, store, rfl, -, rfl⟩ | ⟨b, store, leader, rfl, -, rfl⟩ | ⟨b, node, rfl, hnode, rfl⟩ |
    ⟨items, gap, rfl, rfl⟩ := step_cases hstep
  · exact ⟨hcovering, hremoved, fun items hi => Subset.trans (h.unanswered items hi) hissued,
      Subset.trans h.answered hissued, h.cache, h.owes⟩
  · exact ⟨hcovering, hremoved, fun items hi => Subset.trans (h.unanswered items hi) hissued,
      Subset.trans h.answered hissued, h.cache, h.owes⟩
  · obtain ⟨hun, hans, hcache, howes⟩ := h.nodeStep hcond.2 (nodeStep_cases hnode)
    exact ⟨hcovering, hremoved, hun, hans, hcache, howes⟩
  · refine ⟨hcovering, hremoved, fun b hb => ?_, Subset.trans h.answered hissued, h.cache, h.owes⟩
    rcases mem_append.mp hb with hold | hnew
    · exact Subset.trans (h.unanswered b hold) hissued
    · rw [mem_singleton.mp hnew]
      exact subset_append_right _ _

/-- **A search excludes what local writes answered before it started hide**, along every
interleaving of searches and document writes in which invalidations meet only replies that cover
them. -/
theorem search_excludes_answered {grace : ℕ} {stream : ℤ} {as : List Action} {s : State}
    (halong : Runs.Along (step grace stream) (OrdinaryCovering stream) .init as)
    (hrun : Runs.run (step grace stream) .init as = some s) :
    ∀ q ∈ s.node.searches, q.ExcludesOwed stream := by
  have hinv : Answering stream s :=
    Runs.run_invariant _ (fun _ _ _ h hcond hstep => h.step hcond hstep) (.init stream) halong hrun
  intro q hq t ht hstream d hd
  have hstage := (hinv.owes q hq).stage
  cases hs : q.stage with
  | done splits list shown =>
    rw [hs] at hstage hd
    exact hstage.2 t ht hstream d hd
  | started | splitsRead | waiting | refreshing | fetched | searching | failed =>
    rw [hs] at hd
    cases hd

/-! ## Runs -/

/-- Search `j` finds the cached list stale and reads the (short) list of the metastore. -/
def refreshes (j : ℕ) : List NodeAction :=
  [.start, .readSplits j, .checkCache j, .acquire j, .readPage j]

def searches (j : ℕ) (split : SplitRow) : List NodeAction := [.searchSplit j split, .finish j]

/-- Document `a` is published; a search reads the tombstones (there are none); `a` is deleted on the
same node and the delete answered; only then is the reply stored.  A second search finds it fresh. -/
def staleReply : List Action :=
  ingest "S" [firstA] ++ (refreshes 0).map .node ++ [.write [⟨1, "a", 10⟩] 0, .node (.answer 0)] ++
    (NodeAction.storeList 0 :: .start :: .readSplits 1 :: .checkCache 1 ::
      searches 1 (publishedRow "S" [firstA])).map .node

/-- **The reply read before the commit is stored as fresh after the invalidation.** -/
theorem stale_reply_stored :
    ¬ ∀ (as : List Action) (s : State),
      Runs.Along (step 3600000 1) (fun _ a => a.Ordinary) .init as →
      Runs.run (step 3600000 1) .init as = some s → ∀ q ∈ s.node.searches, q.ExcludesOwed 1 := by
  intro h
  obtain ⟨s, hrun, q, hq, hnot⟩ : ∃ s, Runs.run (step 3600000 1) .init staleReply = some s ∧
      ∃ q ∈ s.node.searches, ¬q.ExcludesOwed 1 := by
    decide +kernel
  exact hnot (h _ s (by decide +kernel) hrun q hq)

/-- The same, with the reply stored before the delete invalidates it: the second search reads the
metastore again. -/
def storedInTime : List Action :=
  ingest "S" [firstA] ++ (refreshes 0 ++ [NodeAction.storeList 0]).map .node ++
    [.write [⟨1, "a", 10⟩] 0, .node (.answer 0)] ++
    (refreshes 1 ++ NodeAction.storeList 1 :: searches 1 (publishedRow "S" [firstA])).map .node

theorem search_excludes_answered_storedInTime :
    ∃ s, Runs.run (step 3600000 1) .init storedInTime = some s ∧
      (s.node.searches.map fun q => q.owed.length) = [0, 1] ∧
      ∀ q ∈ s.node.searches, q.ExcludesOwed 1 := by
  obtain ⟨s, hrun, howed⟩ : ∃ s, Runs.run (step 3600000 1) .init storedInTime = some s ∧
      (s.node.searches.map fun q => q.owed.length) = [0, 1] := by
    decide +kernel
  exact ⟨s, hrun, howed, search_excludes_answered (by decide +kernel) hrun⟩

end RSearch.Visibility
