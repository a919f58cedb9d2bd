import RSearch.Visibility.Invalidate

/-!
# Convergence of concurrent writes

Index and delete writes of explicit ids carry sequence stamps.  An index write with stamp `n` is a
document with `_seq` `n` and a tombstone that hides what is below `n`; a delete with stamp `n` is only
the tombstone.  Documents reach searches through splits, tombstones through the metastore, in any order.
-/

namespace RSearch.Visibility

open List Control Store

structure Write where
  id : String
  stamp : ℤ
  index : Bool
deriving DecidableEq

open Write

/-- The tombstone of a write: `before_seq` is its stamp, for index writes and deletes alike. -/
def Write.tombstone (stream : ℤ) (w : Write) : NewTombstone := ⟨stream, w.id, w.stamp⟩

def Doc.version (d : Doc) : Option String × ℤ := (d.id, d.seq)

def Write.version (w : Write) : Option String × ℤ := (some w.id, w.stamp)

def outranked (ws : List Write) (version : Option String × ℤ) : Bool :=
  ws.any fun w => version.1 == some w.id && decide (version.2 < w.stamp)

/-- **What the writes come to**: the index writes that are not outranked. -/
def outcome (ws : List Write) : List Write :=
  ws.filter fun w => w.index && !outranked ws w.version

def IssuedBy (stream : ℤ) (ws : List Write) (s : Store) : Prop :=
  ∀ t ∈ s.issued, t.streamId = stream → ∃ w ∈ ws, t = w.tombstone stream

instance (stream : ℤ) (ws : List Write) (s : Store) : Decidable (IssuedBy stream ws s) :=
  inferInstanceAs (Decidable (∀ t ∈ s.issued, _))

def unranked (ws : List Write) (docs : List Doc) : List Doc :=
  docs.filter fun d => !outranked ws (Doc.version d)

/-! ## One split -/

variable {ws : List Write} {stream : ℤ} {s : State}

theorem outranked_iff {version : Option String × ℤ} :
    outranked ws version = true ↔ ∃ w ∈ ws, version.1 = some w.id ∧ version.2 < w.stamp := by
  simp [outranked]

theorem Covering.shownDocs_eq (h : Covering stream s) (hissued : IssuedBy stream ws s.store)
    {r : SplitRow} (hheld : HeldOk s.store stream r) (hsettled : Settled s.store r) {list : List Row}
    (hlist : ListDone s.store stream list)
    (hcovers : CoversAll stream list (ws.map (Write.tombstone stream))) :
    s.node.shownDocs list r = unranked ws r.docs := by
  -- an outranked document is not shown
  have hnot : ∀ d ∈ s.node.shownDocs list r, outranked ws (Doc.version d) = false := by
    intro d hd
    rw [Bool.eq_false_iff]
    intro hrank
    obtain ⟨w, hw, hid, hlt⟩ := outranked_iff.mp hrank
    exact h.shownDocs_not_below hheld hsettled hlist
      (hcovers (w.tombstone stream) (mem_map_of_mem hw) rfl) hd ⟨hid, hlt⟩
  unfold Node.shownDocs at hnot ⊢
  split at hnot
  · next happlies =>
      rw [if_pos happlies, unranked]
      refine filter_congr fun d hd => ?_
      rw [Bool.eq_iff_iff, decide_eq_true_iff, Bool.not_eq_true']
      constructor
      · grind
      · -- an excluded document is hidden by a committed tombstone, so by a write
        intro hrank hexcl
        obtain ⟨row, hrow, hstream, hbelow⟩ :=
          (h.node.readerAfter h.store hheld hlist).sound d hexcl
        obtain ⟨w, hw, heq⟩ := hissued _ (h.store.issued row hrow) hstream
        obtain ⟨hid, hlt⟩ := below_iff.mp hbelow
        injection heq with _ hdoc hbefore
        rw [outranked_iff.mpr ⟨w, hw, hdoc ▸ hid, hbefore ▸ hlt⟩] at hrank
        cases hrank
  · next happlies =>
      rw [if_neg happlies, unranked]
      refine (filter_eq_self.mpr fun d hd => ?_).symm
      rw [hnot d hd]
      rfl

/-! ## A whole search -/

def Stage.Converging (stream : ℤ) (ws : List Write) : Stage → Prop
  | .searching splits todo list shown => CoversAll stream list (ws.map (Write.tombstone stream)) →
      (shown ++ todo.flatMap fun r => unranked ws r.docs).Perm
        (splits.flatMap fun r => unranked ws r.docs)
  | .done splits list shown => CoversAll stream list (ws.map (Write.tombstone stream)) →
      shown.Perm (splits.flatMap fun r => unranked ws r.docs)
  | _ => True

structure Converging (stream : ℤ) (ws : List Write) (s : State) : Prop extends
    Covering stream s where
  removed : s.store.removed = []
  stages : IssuedBy stream ws s.store → ∀ q ∈ s.node.searches, q.stage.Converging stream ws

theorem Converging.init (stream : ℤ) (ws : List Write) : Converging stream ws State.init where
  toCovering := .init stream
  removed := rfl
  stages := fun _ _ h => by cases h

theorem Converging.moves (h : Converging stream ws s) (hissued : IssuedBy stream ws s.store) {j : ℕ}
    {q : Search} {a : NodeAction} {stage : Stage} {cache : Option Cache}
    {readers : String → Option ExclusionSet} (hq : q ∈ s.node.searches)
    (hm : Moves stream s.store s.node j q a stage cache readers) : stage.Converging stream ws := by
  have hstage := h.stages hissued q hq
  have hqok := h.node.searches q hq
  cases hm with
  | readSplits | miss | refresh | page | lastPage | cancel => trivial
  | hit | store => exact fun _ => Perm.refl _
  | @searchSplit splits todo list shown split hwas hmem =>
    have hlist := hqok.list
    have hsettled := h.held q hq
    have hsub := hqok.todo
    rw [hwas] at hstage hlist hsettled hsub
    intro hcovers
    have hshown := h.shownDocs_eq hissued (hqok.splits split (hwas ▸ hsub hmem))
      (hsettled split hmem) hlist hcovers
    refine Perm.trans ?_ (hstage hcovers)
    rw [hshown, append_assoc]
    refine Perm.append_left shown ?_
    exact ((perm_cons_erase hmem).flatMap_right fun r => unranked ws r.docs).symm
  | finish hwas =>
    rw [hwas] at hstage
    intro hcovers
    simpa using hstage hcovers

theorem IssuedBy.of_subset {s s' : Store} (h : IssuedBy stream ws s') (hsub : s.issued ⊆ s'.issued) :
    IssuedBy stream ws s :=
  fun t ht => h t (hsub ht)

theorem Converging.step {grace : ℕ} {s' : State} {a : Action} (h : Converging stream ws s)
    (ha : a.Ordinary) (hstep : step grace stream s a = some s') : Converging stream ws s' := by
  obtain ⟨hcovering, hremoved⟩ := Covering.step_ordinary ⟨h.toCovering, h.removed⟩ ha hstep
  refine ⟨hcovering, hremoved, fun hissued' => ?_⟩
  have hissued := hissued'.of_subset (issued_subset hstep)
  have hstages := h.stages hissued
  obtain ⟨b, store, rfl, -, rfl⟩ | ⟨b, store, leader, rfl, -, rfl⟩ | ⟨b, node, rfl, hnode, rfl⟩ |
    ⟨items, gap, rfl, rfl⟩ := step_cases hstep
  · exact hstages
  · exact hstages
  · cases nodeStep_cases hnode with
    | start =>
      intro q hq
      rcases mem_append.mp hq with hold | hnew
      · exact hstages q hold
      · rw [mem_singleton.mp hnew]
        trivial
    | move hq hm =>
      intro q' hq'
      rcases mem_or_eq_of_mem_set hq' with hold | rfl
      · exact hstages q' hold
      · exact h.moves hissued (mem_of_getElem? hq) hm
    | evict | clear | answer => exact hstages
  · exact hstages

/-! ## The outcome -/

theorem map_version_unranked (ws : List Write) (docs : List Doc) :
    (unranked ws docs).map Doc.version =
      (docs.map Doc.version).filter fun v => !outranked ws v := by
  rw [unranked, filter_map]
  rfl

theorem flatMap_unranked (ws : List Write) (splits : List SplitRow) :
    (splits.flatMap fun r => unranked ws r.docs) = unranked ws (splits.flatMap SplitRow.docs) := by
  rw [unranked, filter_flatMap]
  rfl

theorem map_version_outcome (ws : List Write) :
    ((ws.filter index).map version).filter (fun v => !outranked ws v) =
      (outcome ws).map version := by
  rw [filter_map, filter_filter, outcome]
  grind

theorem outcome_filter_id (hstamps : (ws.map stamp).Nodup) {w : Write} (hw : w ∈ ws)
    (hlargest : ∀ v ∈ ws, v.id = w.id → v.stamp ≤ w.stamp) :
    ((outcome ws).map version).filter (fun v => v.1 == some w.id) =
      if w.index then [w.version] else [] := by
  have hrank : ∀ v ∈ ws, v.id = w.id →
      (outranked ws v.version = false ↔ v = w) := by
    intro v hv hid
    rw [Bool.eq_false_iff, ne_eq, outranked_iff]
    constructor
    · intro hnone
      have hle : w.stamp ≤ v.stamp := not_lt.mp fun hlt => hnone ⟨w, hw, congrArg some hid, hlt⟩
      exact inj_on_of_nodup_map hstamps hv hw ((hlargest v hv hid).antisymm hle)
    · rintro rfl ⟨u, hu, huid, hlt⟩
      exact absurd (hlargest u hu (Option.some.inj huid).symm) hlt.not_ge
  have hfilter : (outcome ws).filter (fun v => v.id == w.id) =
      ws.filter fun v => v == w && w.index := by
    rw [outcome, filter_filter]
    refine filter_congr fun v hv => ?_
    grind
  have hversion : ((outcome ws).map version).filter (fun v => v.1 == some w.id) =
      ((outcome ws).filter fun v => v.id == w.id).map version := by
    rw [filter_map]
    rfl
  rw [hversion, hfilter]
  cases hindex : w.index with
  | false => simp
  | true =>
    have hone : ws.filter (fun v => v == w) = [w] := by
      rw [filter_beq, count_eq_one_of_mem hstamps.of_map hw]
      rfl
    simp [hone]

/-- **Concurrent writes converge.**  In every interleaving of writes and searches, for writes with
pairwise distinct stamps: a search whose splits hold every index write exactly once and whose list
has the tombstone of every write shows exactly the index writes that no write outranks.  For each id
that is the write with the largest stamp if it is an index write, and nothing if it is a delete. -/
theorem writes_converge {grace : ℕ} {stream : ℤ} {ws : List Write}
    (hstamps : (ws.map Write.stamp).Nodup) {as : List Action} {s : State}
    (halong : Runs.Along (step grace stream) (fun _ a => a.Ordinary) .init as)
    (hrun : Runs.run (step grace stream) .init as = some s) (hissued : IssuedBy stream ws s.store)
    {q : Search} (hq : q ∈ s.node.searches) {splits : List SplitRow} {list : List Row}
    {shown : List Doc} (hdone : q.stage = .done splits list shown)
    (hpublished : ((splits.flatMap SplitRow.docs).map Doc.version).Perm
      ((ws.filter Write.index).map Write.version))
    (happlied : CoversAll stream list (ws.map (Write.tombstone stream))) :
    (shown.map Doc.version).Perm ((outcome ws).map Write.version) ∧
      ∀ w ∈ ws, (∀ v ∈ ws, v.id = w.id → v.stamp ≤ w.stamp) →
        (shown.map Doc.version).filter (fun v => v.1 == some w.id) =
          if w.index then [w.version] else [] := by
  have hinv : Converging stream ws s :=
    Runs.run_invariant _ (fun _ _ _ h ha hstep => h.step ha hstep) (.init stream ws) halong hrun
  have hstage := hinv.stages hissued q hq
  rw [hdone] at hstage
  have hperm : (shown.map Doc.version).Perm ((outcome ws).map Write.version) :=
    calc (shown.map Doc.version).Perm
          ((splits.flatMap fun r => unranked ws r.docs).map Doc.version) := (hstage happlied).map _
      _ = ((splits.flatMap SplitRow.docs).map Doc.version).filter fun v => !outranked ws v := by
          rw [flatMap_unranked, map_version_unranked]
      List.Perm _ (((ws.filter Write.index).map Write.version).filter fun v => !outranked ws v) :=
          hpublished.filter _
      _ = (outcome ws).map Write.version := map_version_outcome ws
  refine ⟨hperm, fun w hw hlargest => ?_⟩
  have hid := hperm.filter fun v => v.1 == some w.id
  rw [outcome_filter_id hstamps hw hlargest] at hid
  split at hid
  · next hindex =>
      rw [if_pos hindex]
      exact perm_singleton.mp hid
  · next hindex =>
      rw [if_neg hindex]
      exact hid.eq_nil

def fourWrites : List Write := [⟨"a", 5, true⟩, ⟨"a", 10, true⟩, ⟨"b", 7, true⟩, ⟨"b", 8, false⟩]

def splitLate : SplitRow := publishedRow "S" [firstA, ⟨2, some "b", 7⟩]

def splitSoon : SplitRow := publishedRow "T" [⟨1, some "a", 10⟩]

/-- Bounds arrive out of order, a search runs in between, and the older versions are published last. -/
def anyOrder : List Action :=
  [tombstone "b" 8, tombstone "a" 10] ++ ingest "T" splitSoon.docs ++
    (refreshes 0 ++ NodeAction.storeList 0 :: searches 0 splitSoon).map .node ++
    [tombstone "a" 5] ++ ingest "S" splitLate.docs ++ [tombstone "b" 7] ++
    (NodeAction.start :: .readSplits 1 :: .checkCache 1 :: .searchSplit 1 splitSoon ::
      searches 1 splitLate).map .node

theorem writes_converge_anyOrder :
    ∃ s q splits list shown, Runs.run (step 3600000 1) .init anyOrder = some s ∧
      q ∈ s.node.searches ∧ q.stage = .done splits list shown ∧ splits.length = 2 ∧
      (shown.map Doc.version).Perm ((outcome fourWrites).map Write.version) := by
  obtain ⟨s, hrun, hissued, q, hq, d, hd, hpublished, happlied, hlength⟩ :
      ∃ s, Runs.run (step 3600000 1) .init anyOrder = some s ∧ IssuedBy 1 fourWrites s.store ∧
        ∃ q ∈ s.node.searches, ∃ d, q.stage.done? = some d ∧
          ((d.1.flatMap SplitRow.docs).map Doc.version).Perm
            ((fourWrites.filter Write.index).map Write.version) ∧
          CoversAll 1 d.2.1 (fourWrites.map (Write.tombstone 1)) ∧ d.1.length = 2 := by
    decide +kernel
  have hstage := Stage.eq_done_of_done? hd
  exact ⟨s, q, d.1, d.2.1, d.2.2, hrun, hq, hstage, hlength,
    (writes_converge (by decide) (by decide +kernel) hrun hissued hq hstage hpublished happlied).1⟩

/-- **The cached list is the table up to its end.**  In every run, the list in a node's cache is in sequence
order, has only rows that were committed, and for every row committed up to its end a bound at least as
high, unless the row that has it was purged. -/
theorem cached_list_complete {grace : ℕ} {stream : ℤ} {as : List Action} {s : State} {c : Cache}
    (hrun : Runs.run (step grace stream) .init as = some s) (hc : s.node.cache = some c) :
    Feed.Sorted seqOf c.entries ∧ (∀ row ∈ c.entries, row ∈ s.store.committed ∧ row.streamId = stream) ∧
      ∀ row ∈ s.store.committed, row.streamId = stream → row.seq ≤ Feed.last seqOf c.entries →
        Covered c.entries row.streamId row.docId row.beforeSeq ∨
          Covered s.store.removed row.streamId row.docId row.beforeSeq := by
  have h : Whole stream s :=
    Runs.run_invariant_always _ (fun _ _ _ h hstep => h.step hstep) (.init stream) hrun
  have hlist := h.node.cache c hc
  exact ⟨hlist.sorted, hlist.mem, hlist.complete⟩

theorem cached_list_complete_anyOrder :
    ∃ s c, Runs.run (step 3600000 1) .init anyOrder = some s ∧ s.node.cache = some c ∧
      c.entries.length = 2 ∧ Feed.Sorted seqOf c.entries := by
  obtain ⟨s, hrun, c, hc, hlength⟩ : ∃ s, Runs.run (step 3600000 1) .init anyOrder = some s ∧
      ∃ c, s.node.cache = some c ∧ c.entries.length = 2 := by
    decide +kernel
  exact ⟨s, c, hrun, hc, hlength, (cached_list_complete hrun hc).1⟩

end RSearch.Visibility
