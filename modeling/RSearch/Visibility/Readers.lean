import RSearch.Visibility.Applied

/-!
# The search node

The node's transitions as relations (`Moves` for the search that moves, `NodeStep` for the node), and
what holds of its lists, its open readers and its searches in every reachable state:

* every list it keeps is what `ListOk` or, once read to the end, `ListDone` says;
* a reader excludes only documents some committed tombstone of the stream hides (`ReaderOk`);
* a search holds rows that still describe their splits (`SearchOk`).

The converse of the second point, that a reader excludes *everything* the tombstones up to its own
sequence hide (`ReaderComplete`), rests on the promise of `tombstone_seq_applied` at the time the
reader was opened, so it is kept apart (`Covering`).
-/

namespace RSearch.Visibility

open List Option Control Store Subset

/-! ## The transitions -/

/-- Search `q`, the `j`-th of the node, moves to another stage; with it may change the cached list
and one reader. -/
inductive Moves (stream : ℤ) (s : Store) (n : Node) (j : ℕ) (q : Search) :
    NodeAction → Stage → Option Cache → (String → Option ExclusionSet) → Prop where
  | readSplits (hq : q.stage = .started) :
      Moves stream s n j q (.readSplits j) (.splitsRead (s.published stream)) n.cache n.readers
  | hit {a : NodeAction} {splits : List SplitRow} {list : List Row}
      (hq : q.stage = .splitsRead splits ∨ q.stage = .waiting splits)
      (hfresh : n.freshEntries s.clock = some list) :
      Moves stream s n j q a (.searching splits splits list []) n.cache n.readers
  | miss {splits : List SplitRow} (hq : q.stage = .splitsRead splits) :
      Moves stream s n j q (.checkCache j) (.waiting splits) n.cache n.readers
  | refresh {splits : List SplitRow} (hq : q.stage = .waiting splits) :
      Moves stream s n j q (.acquire j) (.refreshing splits (n.refreshBase s.clock).1
        (n.refreshBase s.clock).2) n.cache n.readers
  | page {splits : List SplitRow} {list : List Row} {rebuiltAt : ℕ}
      (hq : q.stage = .refreshing splits list rebuiltAt) :
      Moves stream s n j q (.readPage j) (.refreshing splits
        (list ++ s.tombstonesSince stream (Feed.last seqOf list) tombstonePage) rebuiltAt)
        n.cache n.readers
  | lastPage {splits : List SplitRow} {list : List Row} {rebuiltAt : ℕ}
      (hq : q.stage = .refreshing splits list rebuiltAt)
      (hshort : (s.tombstonesSince stream (Feed.last seqOf list) tombstonePage).length <
        tombstonePage) :
      Moves stream s n j q (.readPage j) (.fetched splits
        (list ++ s.tombstonesSince stream (Feed.last seqOf list) tombstonePage) rebuiltAt)
        n.cache n.readers
  | store {splits : List SplitRow} {list : List Row} {rebuiltAt : ℕ}
      (hq : q.stage = .fetched splits list rebuiltAt) :
      Moves stream s n j q (.storeList j) (.searching splits splits list [])
        (some ⟨list, some s.clock, rebuiltAt⟩) n.readers
  | searchSplit {splits todo : List SplitRow} {list : List Row} {shown : List Doc}
      {split : SplitRow} (hq : q.stage = .searching splits todo list shown) (hmem : split ∈ todo) :
      Moves stream s n j q (.searchSplit j split) (.searching splits (todo.erase split) list
        (shown ++ n.shownDocs list split)) n.cache
        (Function.update n.readers split.splitId (some (n.readerAfter list split)))
  | finish {splits : List SplitRow} {list : List Row} {shown : List Doc}
      (hq : q.stage = .searching splits [] list shown) :
      Moves stream s n j q (.finish j) (.done splits list shown) n.cache n.readers
  | cancel : Moves stream s n j q (.cancel j) .failed n.cache n.readers

inductive NodeStep (stream : ℤ) (s : Store) (n : Node) : NodeAction → Node → Prop where
  | start :
      NodeStep stream s n .start { n with searches := n.searches ++ [⟨s.clock, n.answered, .started⟩] }
  | move {a : NodeAction} {j : ℕ} {q : Search} {stage : Stage} {cache : Option Cache}
      {readers : String → Option ExclusionSet} (hq : n.searches[j]? = some q)
      (h : Moves stream s n j q a stage cache readers) :
      NodeStep stream s n a { n with
        cache, readers, searches := n.searches.set j { q with stage } }
  | evict (splitId : String) :
      NodeStep stream s n (.evict splitId) { n with
        readers := Function.update n.readers splitId none }
  | clear : NodeStep stream s n .clear { n with cache := none }
  | answer {k : ℕ} {items : List NewTombstone} (hk : n.unanswered[k]? = some items) :
      NodeStep stream s n (.answer k) { n with
        cache := n.cache.map fun c =>
          if items.any fun t => t.streamId == stream then { c with fetchedAt := none } else c
        unanswered := n.unanswered.eraseIdx k
        answered := n.answered ++ items }

variable {stream : ℤ} {s s' : Store} {n n' : Node} {a : NodeAction} {stage : Stage} {set : ExclusionSet}
  {r : SplitRow} {q : Search} {list : List Row} {readers : String → Option ExclusionSet}

theorem nodeStep_cases (h : nodeStep stream s n a = some n') : NodeStep stream s n a n' := by
  cases a with
  | start =>
    cases h
    exact .start
  | readSplits j =>
    obtain ⟨q, hq, h⟩ := bind_eq_some_iff.mp h
    cases hstage : q.stage <;> simp only [hstage, reduceCtorEq] at h
    cases h
    exact .move hq (.readSplits hstage)
  | checkCache j =>
    obtain ⟨q, hq, h⟩ := bind_eq_some_iff.mp h
    cases hstage : q.stage <;> simp only [hstage, reduceCtorEq] at h
    split at h <;> cases h
    · next hfresh => exact .move hq (.hit (.inl hstage) hfresh)
    · exact .move hq (.miss hstage)
  | acquire j =>
    obtain ⟨q, hq, h⟩ := bind_eq_some_iff.mp h
    cases hstage : q.stage <;> simp only [hstage, reduceCtorEq] at h
    split at h
    · cases h
    · split at h <;> cases h
      · next hfresh => exact .move hq (.hit (.inr hstage) hfresh)
      · exact .move hq (.refresh hstage)
  | readPage j =>
    obtain ⟨q, hq, h⟩ := bind_eq_some_iff.mp h
    cases hstage : q.stage <;> simp only [hstage, reduceCtorEq] at h
    split at h <;> cases h
    · next hshort => exact .move hq (.lastPage hstage hshort)
    · exact .move hq (.page hstage)
  | storeList j =>
    obtain ⟨q, hq, h⟩ := bind_eq_some_iff.mp h
    cases hstage : q.stage <;> simp only [hstage, reduceCtorEq] at h
    cases h
    exact .move hq (.store hstage)
  | searchSplit j split =>
    obtain ⟨q, hq, h⟩ := bind_eq_some_iff.mp h
    cases hstage : q.stage <;> simp only [hstage, reduceCtorEq] at h
    split at h <;> cases h
    next hmem => exact .move hq (.searchSplit hstage hmem)
  | finish j =>
    obtain ⟨q, hq, h⟩ := bind_eq_some_iff.mp h
    cases hstage : q.stage with
    | searching splits todo list shown =>
      cases todo <;> simp only [hstage, reduceCtorEq] at h
      cases h
      exact .move hq (.finish hstage)
    | started | splitsRead | waiting | refreshing | fetched | done | failed =>
      simp only [hstage, reduceCtorEq] at h
  | cancel j =>
    obtain ⟨q, hq, h⟩ := bind_eq_some_iff.mp h
    cases hstage : q.stage <;> simp only [hstage, reduceCtorEq] at h <;> cases h <;>
      exact .move hq .cancel
  | evict splitId =>
    cases h
    exact .evict splitId
  | clear =>
    cases h
    exact .clear
  | answer k =>
    obtain ⟨items, hk, h⟩ := bind_eq_some_iff.mp h
    cases h
    exact .answer hk

/-! ## Readers and searches -/

def Stage.splits : Stage → List SplitRow
  | .started | .failed => []
  | .splitsRead splits | .waiting splits | .refreshing splits .. | .fetched splits ..
  | .searching splits .. | .done splits .. => splits

def Stage.todo : Stage → List SplitRow
  | .searching _ todo _ _ => todo
  | .done .. => []
  | stage => stage.splits

def Stage.reply : Stage → List (List Row)
  | .fetched _ list _ => [list]
  | _ => []

def Stage.result : Stage → List Doc
  | .done _ _ shown => shown
  | _ => []

def Stage.done? : Stage → Option (List SplitRow × List Row × List Doc)
  | .done splits list shown => some (splits, list, shown)
  | _ => none

theorem Stage.eq_done_of_done? {d : List SplitRow × List Row × List Doc} (h : stage.done? = some d) :
    stage = .done d.1 d.2.1 d.2.2 := by
  cases stage with
  | done splits list shown =>
    cases h
    rfl
  | _ => cases h

def Stage.ListOk (s : Store) (stream : ℤ) : Stage → Prop
  | .refreshing _ list _ => Visibility.ListOk s stream list
  | .fetched _ list _ | .searching _ _ list _ | .done _ list _ => ListDone s stream list
  | .started | .splitsRead _ | .waiting _ | .failed => True

structure ReaderOk (s : Store) (stream : ℤ) (set : ExclusionSet) : Prop where
  lt : set.appliedThrough < s.nextSeq
  sound : ∀ d ∈ set.excluded, ∃ row ∈ s.committed, row.streamId = stream ∧
    below row.toTombstone d = true

structure HeldOk (s : Store) (stream : ℤ) (r : SplitRow) : Prop where
  held : s.Held r
  stream_eq : r.streamId = stream
  nonneg : 0 ≤ r.tombstoneSeqApplied
  lt : r.tombstoneSeqApplied < s.nextSeq

structure SearchOk (s : Store) (stream : ℤ) (q : Search) : Prop where
  started : q.startedAt ≤ s.clock
  splits : ∀ r ∈ q.stage.splits, HeldOk s stream r
  todo : q.stage.todo ⊆ q.stage.splits
  list : q.stage.ListOk s stream

structure Node.Ok (s : Store) (stream : ℤ) (n : Node) : Prop where
  cache : ∀ c, n.cache = some c → ListDone s stream c.entries
  readers : ∀ splitId set, n.readers splitId = some set → ReaderOk s stream set
  searches : ∀ q ∈ n.searches, SearchOk s stream q

theorem ReaderOk.later (h : ReaderOk s stream set) (hlater : s.Later s') : ReaderOk s' stream set where
  lt := h.lt.trans_le hlater.nextSeq
  sound := fun d hd => by
    obtain ⟨row, hrow, hhides⟩ := h.sound d hd
    exact ⟨row, hlater.committed_sub hrow, hhides⟩

theorem HeldOk.later (h : HeldOk s stream r) (hlater : s.Later s') : HeldOk s' stream r :=
  { h with held := h.held.later hlater, lt := h.lt.trans_le hlater.nextSeq }

theorem Stage.ListOk.later (h : stage.ListOk s stream) (hs : s.Ok) (hlater : s.Later s') :
    stage.ListOk s' stream := by
  cases stage with
  | started | splitsRead | waiting | failed => trivial
  | refreshing splits list rebuiltAt => exact Visibility.ListOk.later h hs hlater
  | fetched splits list rebuiltAt | searching splits todo list shown | done splits list shown =>
    exact ListDone.later h hs hlater

theorem SearchOk.later (h : SearchOk s stream q) (hs : s.Ok) (hlater : s.Later s') :
    SearchOk s' stream q where
  started := h.started.trans hlater.clock
  splits := fun r hr => (h.splits r hr).later hlater
  todo := h.todo
  list := h.list.later hs hlater

theorem Node.Ok.later (h : n.Ok s stream) (hs : s.Ok) (hlater : s.Later s') : n.Ok s' stream where
  cache := fun c hc => (h.cache c hc).later hs hlater
  readers := fun splitId set hset => (h.readers splitId set hset).later hlater
  searches := fun q hq => (h.searches q hq).later hs hlater

theorem Node.freshEntries_eq {clock : ℕ} (h : n.freshEntries clock = some list) :
    ∃ c t, n.cache = some c ∧ c.entries = list ∧
      c.fetchedAt = some t ∧ clock < t + tombstoneCacheTtl := by
  obtain ⟨c, hc, h⟩ := bind_eq_some_iff.mp h
  split at h
  · next hany =>
      obtain ⟨t, ht, hlt⟩ := (any_eq_true _ _).mp hany
      grind
  · cases h

theorem Node.refreshBase_eq (n : Node) (clock : ℕ) :
    (n.refreshBase clock).1 = [] ∨ ∃ c, n.cache = some c ∧ (n.refreshBase clock).1 = c.entries := by
  grind [refreshBase]

theorem Node.Ok.refreshBase (h : n.Ok s stream) (hs : s.Ok) (clock : ℕ) :
    ListOk s stream (n.refreshBase clock).1 := by
  rcases n.refreshBase_eq clock with hnil | ⟨c, hc, heq⟩
  · rw [hnil]
    exact .nil hs stream
  · rw [heq]
    exact (h.cache c hc).toListOk

theorem HeldOk.openReader (h : HeldOk s stream r) :
    ReaderOk s stream (openReader r) where
  lt := by
    rw [openReader_appliedThrough h.nonneg]
    exact h.lt
  sound := fun d hd => by
    rw [openReader_excluded] at hd
    cases hd

theorem Node.Ok.reader (h : n.Ok s stream) (hr : HeldOk s stream r) :
    ReaderOk s stream (n.reader r) := by
  unfold Node.reader
  cases hset : n.readers r.splitId with
  | some set => exact h.readers _ set hset
  | none => exact hr.openReader

theorem Node.Ok.readerAfter (h : n.Ok s stream) (hs : s.Ok) (hr : HeldOk s stream r)
    (hlist : ListDone s stream list) : ReaderOk s stream (n.readerAfter list r) := by
  have hreader := h.reader hr
  unfold Node.readerAfter
  split
  · refine ⟨?_, fun d hd => ?_⟩
    · obtain heq | heq := appliedThrough_applyTombstones r.docs (n.reader r) (list.map Row.toTombstone)
      · rw [heq]
        exact hreader.lt
      · rw [heq, last_toTombstone]
        exact hlist.last_lt hs
    · rcases (mem_applyRows hlist.sorted).mp hd with hold | ⟨-, row, hrow, -, hbelow⟩
      · exact hreader.sound d hold
      · exact ⟨row, (hlist.mem row hrow).1, (hlist.mem row hrow).2, hbelow⟩
  · exact hreader

/-! ## Every step of the node -/

theorem HeldOk.of_published (hs : s.Ok) (hr : r ∈ s.published stream) : HeldOk s stream r := by
  obtain ⟨hmem, hp⟩ := mem_filter.mp hr
  obtain ⟨hstream, -⟩ := Bool.and_eq_true_iff.mp hp
  exact ⟨.of_mem hmem, beq_iff_eq.mp hstream, (hs.applied r hmem).1, (hs.applied r hmem).2⟩

theorem reader_of_update {splitId splitId' : String} {new : Option ExclusionSet}
    (h : Function.update readers splitId new splitId' = some set) :
    splitId' = splitId ∧ new = some set ∨ readers splitId' = some set := by
  grind

theorem Moves.searchOk {j : ℕ} {cache : Option Cache} (h : Moves stream s n j q a stage cache readers)
    (hn : n.Ok s stream) (hs : s.Ok) (hq : SearchOk s stream q) :
    SearchOk s stream { q with stage } := by
  have hsplits := hq.splits
  have htodo := hq.todo
  have hlist := hq.list
  cases h with
  | readSplits hstage =>
    exact ⟨hq.started, fun r hr => .of_published hs hr, refl _, trivial⟩
  | hit hstage hfresh =>
    obtain ⟨c, t, hc, rfl, -, -⟩ := Node.freshEntries_eq hfresh
    refine ⟨hq.started, ?_, refl _, hn.cache c hc⟩
    rcases hstage with hstage | hstage <;> rw [hstage] at hsplits <;> exact hsplits
  | miss hstage =>
    rw [hstage] at hsplits
    exact ⟨hq.started, hsplits, refl _, trivial⟩
  | refresh hstage =>
    rw [hstage] at hsplits
    exact ⟨hq.started, hsplits, refl _, hn.refreshBase hs _⟩
  | page hstage =>
    rw [hstage] at hsplits hlist
    exact ⟨hq.started, hsplits, refl _, ListOk.page hlist hs _⟩
  | lastPage hstage hshort =>
    rw [hstage] at hsplits hlist
    exact ⟨hq.started, hsplits, refl _, ListDone.of_short hlist hs hshort⟩
  | store hstage =>
    rw [hstage] at hsplits hlist
    exact ⟨hq.started, hsplits, refl _, hlist⟩
  | searchSplit hstage hmem =>
    rw [hstage] at hsplits htodo hlist
    exact ⟨hq.started, hsplits, fun r hr => htodo (mem_of_mem_erase hr), hlist⟩
  | finish hstage =>
    rw [hstage] at hsplits hlist
    exact ⟨hq.started, hsplits, nil_subset _, hlist⟩
  | cancel => exact ⟨hq.started, fun _ => (absurd · not_mem_nil), refl _, trivial⟩

theorem NodeStep.ok (h : NodeStep stream s n a n') (hn : n.Ok s stream) (hs : s.Ok) :
    n'.Ok s stream := by
  cases h with
  | start =>
    refine { hn with searches := fun q hq => ?_ }
    rcases mem_append.mp hq with hold | hnew
    · exact hn.searches q hold
    · rw [mem_singleton.mp hnew]
      exact ⟨le_rfl, fun _ => (absurd · not_mem_nil), refl _, trivial⟩
  | @move a j q stage cache readers hq hm =>
    have hqok := hn.searches q (mem_of_getElem? hq)
    refine ⟨?_, ?_, fun q' hq' => ?_⟩
    · cases hm with
      | store hstage =>
        intro c hc
        have hlist := hqok.list
        rw [hstage] at hlist
        cases hc
        exact hlist
      | _ => exact hn.cache
    · cases hm with
      | searchSplit hstage hmem =>
        intro splitId set hset
        have hlist := hqok.list
        have hheld := hqok.splits _ (hqok.todo (by rw [hstage]; exact hmem))
        rw [hstage] at hlist
        rcases reader_of_update hset with ⟨-, hnew⟩ | hold
        · cases hnew
          exact hn.readerAfter hs hheld hlist
        · exact hn.readers splitId set hold
      | _ => exact hn.readers
    · rcases mem_or_eq_of_mem_set hq' with hold | rfl
      · exact hn.searches q' hold
      · exact hm.searchOk hn hs hqok
  | evict splitId =>
    refine { hn with readers := fun id set hset => ?_ }
    rcases reader_of_update hset with ⟨-, hnew⟩ | hold
    · cases hnew
    · exact hn.readers id set hold
  | clear => exact { hn with cache := fun c hc => by cases hc }
  | answer hk =>
    refine { hn with cache := fun c hc => ?_ }
    obtain ⟨c₀, hc₀, rfl⟩ := map_eq_some_iff.mp hc
    split
    · exact hn.cache c₀ hc₀
    · exact hn.cache c₀ hc₀

structure Whole (stream : ℤ) (s : State) : Prop extends Base s where
  node : s.node.Ok s.store stream

theorem Whole.init (stream : ℤ) : Whole stream State.init where
  toBase := .init
  node := {
    cache := fun _ hc => by cases hc
    readers := fun _ _ hset => by cases hset
    searches := fun _ hq => by cases hq }

theorem Whole.step {grace : ℕ} {s s' : State} {a : Action} (h : Whole stream s)
    (hstep : step grace stream s a = some s') : Whole stream s' := by
  obtain ⟨hbase, hlater⟩ := h.toBase.step hstep
  refine ⟨hbase, ?_⟩
  obtain ⟨b, store, -, -, rfl⟩ | ⟨b, store, leader, -, -, rfl⟩ | ⟨b, node, -, hnode, rfl⟩ |
    ⟨items, gap, -, rfl⟩ := step_cases hstep
  · exact h.node.later h.store hlater
  · exact h.node.later h.store hlater
  · exact (nodeStep_cases hnode).ok h.node h.store
  · exact { h.node.later h.store hlater with }

end RSearch.Visibility
