import RSearch.Visibility.Lists

/-!
# What every step keeps, whoever takes it

The transitions of the cluster as relations with one rule each (`WriterStep`, `LeaderStep`), and the
invariant that needs no assumption on the environment:

* the metastore's own invariant, and that the store only moves on (`Store.Later`);
* the leader's list and sources are what `Leader.Ok` says, at every point of its tick;
* `Store.TableApplied` — a tombstone *of the table* at or below a split's `tombstone_seq_applied`
  hides nothing in that split, whatever state the split is in.

The last one is what makes a purge harmless at the moment it runs.  It speaks of rows that are still
in the table only; for rows that were deleted earlier it can fail (`Visibility.Applied`).
-/

namespace RSearch.Visibility

open List Option Control Store

/-! ## The transitions -/

inductive WriterStep (s : Store) : Writer → Store → Prop where
  | tick (millis : ℕ) : WriterStep s (.tick millis) { s with clock := s.clock + millis }
  | upsert (items : List NewTombstone) (gap : ℕ) :
      WriterStep s (.upsert items gap) (s.upsertTombstones items gap)
  | stage {splitId : String} {streamId : ℤ} {docs : List Doc} {splits : Splits} (hne : docs ≠ [])
      (hnew : splitId ∉ s.splits.rows.map SplitRow.splitId)
      (hrows : splits.rows = ⟨splitId, streamId, .staged, 0, docs⟩ :: s.splits.rows) :
      WriterStep s (.stage splitId streamId docs) (s.withSplits splits)
  | publish (splitId : String) : WriterStep s (.publish splitId) (s.withSplits
      (s.splits.setState (fun r => r.splitId == splitId && r.state == .staged) .published))
  | markForDelete (splitIds : List String) : WriterStep s (.markForDelete splitIds)
      (s.withSplits (s.splits.markSplitsForDelete splitIds))
  | retire (streamId : ℤ) : WriterStep s (.retire streamId) (s.retireStream streamId)

variable {s s' : Store} {a : LeaderAction} {grace : ℕ} {l l' : Leader} {row : Row}
  {r source r' : SplitRow} {d : Doc} {list : List Row} {fresh : ℕ → String}
  {group sources : List SplitRow} {streamId stream : ℤ}

theorem writerStep_of_writer {a : Writer} (h : s.writer a = some s') : WriterStep s a s' := by
  cases a with
  | tick millis =>
    cases h
    exact .tick millis
  | upsert items gap =>
    cases h
    exact .upsert items gap
  | stage splitId streamId docs =>
    simp only [writer] at h
    split at h
    · cases h
    · next hne =>
        obtain ⟨splits, hsplits, rfl⟩ := map_eq_some_iff.mp h
        obtain ⟨hnew, hrows⟩ := Splits.stageSplit_rows hsplits
        exact .stage hne hnew hrows
  | publish splitId =>
    simp only [writer] at h
    split at h <;> cases h
    exact .publish splitId
  | markForDelete splitIds =>
    cases h
    exact .markForDelete splitIds
  | retire streamId =>
    cases h
    exact .retire streamId

inductive LeaderStep (grace : ℕ) (s : Store) : Leader → LeaderAction → Store → Leader → Prop where
  | select {streamId : ℤ} {sources : List SplitRow} (h : s.Selectable streamId sources) :
      LeaderStep grace s .idle (.select streamId sources) s (.listing streamId sources [])
  | page {streamId : ℤ} {sources : List SplitRow} {list : List Row} :
      LeaderStep grace s (.listing streamId sources list) .page s (.listing streamId sources
        (list ++ s.tombstonesSince streamId (Feed.last seqOf list) tombstonePage))
  | lastPage {streamId : ℤ} {sources : List SplitRow} {list : List Row}
      (hshort : (s.tombstonesSince streamId (Feed.last seqOf list) tombstonePage).length <
        tombstonePage) :
      LeaderStep grace s (.listing streamId sources list) .page s (.listed streamId sources
        (list ++ s.tombstonesSince streamId (Feed.last seqOf list) tombstonePage))
  | logMode {streamId : ℤ} {sources : List SplitRow} :
      LeaderStep grace s (.listing streamId sources []) .logMode s (.listed streamId sources [])
  | drop {streamId : ℤ} {sources group : List SplitRow} {list : List Row} {fresh : ℕ → String}
      {newId : String} (hsub : group ⊆ sources) (hnil : rebuildDocs fresh list group = []) :
      LeaderStep grace s (.listed streamId sources list) (.rebuild group fresh newId)
        (s.withSplits (s.splits.markSplitsForDelete (group.map SplitRow.splitId)))
        (.listed streamId sources list)
  | stage {streamId : ℤ} {sources group : List SplitRow} {list : List Row} {fresh : ℕ → String}
      {newId : String} {splits : Splits} (hsub : group ⊆ sources)
      (hfresh : s.FreshIds fresh list group)
      (hnew : newId ∉ s.splits.rows.map SplitRow.splitId)
      (hrows : splits.rows = ⟨newId, streamId, .staged, Feed.last seqOf list,
        rebuildDocs fresh list group⟩ :: s.splits.rows) :
      LeaderStep grace s (.listed streamId sources list) (.rebuild group fresh newId)
        (s.withSplits splits) (.staged streamId sources list group newId)
  | swap {streamId : ℤ} {sources group : List SplitRow} {list : List Row} {newId : String}
      {splits : Splits} (hswap : s.splits.swapSplits (group.map SplitRow.splitId) newId = some splits) :
      LeaderStep grace s (.staged streamId sources list group newId) .swap (s.withSplits splits)
        (.listed streamId sources list)
  | conflict {streamId : ℤ} {sources group : List SplitRow} {list : List Row} {newId : String} :
      LeaderStep grace s (.staged streamId sources list group newId) .swap s
        (.listed streamId sources list)
  | markApplied {streamId : ℤ} {sources : List SplitRow} {list : List Row} {source : SplitRow}
      (hmem : source ∈ sources) (hnone : (rewriteReader list source).excluded = []) :
      LeaderStep grace s (.listed streamId sources list) (.markApplied source)
        (s.withSplits (s.splits.markTombstonesApplied source.splitId (Feed.last seqOf list)))
        (.listed streamId sources list)
  | finish {l : Leader} : LeaderStep grace s l .finish s .idle
  | purge {picked : List ℤ} :
      LeaderStep grace s .idle (.purge picked) (s.purgeTombstones grace picked) .idle

theorem leaderStep_cases (h : leaderStep grace s l a = some (s', l')) :
    LeaderStep grace s l a s' l' := by
  cases a with
  | select streamId sources =>
    cases l with
    | idle =>
      simp only [leaderStep] at h
      split at h <;> cases h
      next hsel => exact .select hsel
    | listing | listed | staged => cases h
  | page =>
    cases l with
    | listing streamId sources list =>
      simp only [leaderStep] at h
      split at h <;> cases h
      · next hshort => exact .lastPage hshort
      · exact .page
    | idle | listed | staged => cases h
  | logMode =>
    cases l with
    | listing streamId sources list =>
      cases list with
      | nil =>
        cases h
        exact .logMode
      | cons row list => cases h
    | idle | listed | staged => cases h
  | rebuild group fresh newId =>
    cases l with
    | listed streamId sources list =>
      simp only [leaderStep] at h
      split at h
      · next hguard =>
          obtain ⟨-, hsub, hfresh⟩ := hguard
          split at h
          · next hnil =>
              cases h
              exact .drop hsub hnil
          · obtain ⟨splits, hstage, hpair⟩ := map_eq_some_iff.mp h
            obtain ⟨hnew, hrows⟩ := Splits.stageSplit_rows hstage
            cases hpair
            exact .stage hsub hfresh hnew hrows
      · cases h
    | idle | listing | staged => cases h
  | swap =>
    cases l with
    | staged streamId sources list group newId =>
      simp only [leaderStep] at h
      split at h <;> cases h
      · next hswap => exact .swap hswap
      · exact .conflict
    | idle | listing | listed => cases h
  | markApplied source =>
    cases l with
    | listed streamId sources list =>
      simp only [leaderStep] at h
      split at h <;> cases h
      next hguard => exact .markApplied hguard.1 hguard.2
    | idle | listing | staged => cases h
  | finish =>
    cases h
    exact .finish
  | purge picked =>
    cases l with
    | idle =>
      cases h
      exact .purge
    | listing | listed | staged => cases h

/-! ## What a rewrite copies -/

def HidesNothing (row : Row) (r : SplitRow) : Prop :=
  ∀ d ∈ r.docs, row.hides r.streamId d = false

theorem HidesNothing.below (h : HidesNothing row r) (hstream : row.streamId = r.streamId)
    (hd : d ∈ r.docs) : below row.toTombstone d = false := by
  rw [Bool.eq_false_iff]
  intro hbelow
  exact Bool.eq_false_iff.mp (h d hd) (hides_iff.mpr ⟨hstream, hbelow⟩)

theorem hidesNothing_of_below
    (h : row.streamId = r.streamId → ∀ d ∈ r.docs, below row.toTombstone d = false) :
    HidesNothing row r := by
  intro d hd
  grind [hides_iff]

theorem mem_keptDocs (hsorted : Feed.Sorted seqOf list) (happlied : 0 ≤ source.tombstoneSeqApplied) :
    d ∈ keptDocs list source ↔ d ∈ source.docs ∧
      ∀ row ∈ list, source.tombstoneSeqApplied < row.seq → below row.toTombstone d = false := by
  rw [keptDocs, mem_filter, decide_eq_true_iff, rewriteReader, mem_applyRows hsorted,
    openReader_excluded, openReader_appliedThrough happlied]
  grind

theorem mem_rebuildDocs (h : d ∈ rebuildDocs fresh list group) :
    (∃ source ∈ group, d ∈ keptDocs list source) ∨
      ∃ p ∈ (group.flatMap (keptDocs list)).zipIdx, p.1.id = none ∧ d.id = some (fresh p.2) := by
  rw [rebuildDocs, mapIdx_eq_zipIdx_map] at h
  obtain ⟨⟨d₀, n⟩, hp, rfl⟩ := List.mem_map.mp h
  cases hid : d₀.id with
  | some id =>
    simp only [identity, hid]
    exact .inl (mem_flatMap.mp (fst_mem_of_mem_zipIdx hp))
  | none =>
    grind [identity]

theorem mem_rebuildDocs_of_id (hsource : source ∈ group) (hd : d ∈ keptDocs list source) {id : String}
    (hid : d.id = some id) : d ∈ rebuildDocs fresh list group := by
  have hmem : d ∈ group.flatMap (keptDocs list) := mem_flatMap.mpr ⟨source, hsource, hd⟩
  obtain ⟨n, hn, hget⟩ := getElem_of_mem hmem
  grind [identity, rebuildDocs]

theorem rebuildDocs_below (hfresh : s.FreshIds fresh list group) (hrow : row ∈ s.committed)
    (h : ∀ source ∈ group, ∀ d ∈ keptDocs list source, below row.toTombstone d = false) :
    ∀ d ∈ rebuildDocs fresh list group, below row.toTombstone d = false := by
  intro d hd
  rcases mem_rebuildDocs hd with ⟨source, hsource, hkept⟩ | ⟨p, hp, hnone, hid⟩
  · exact h source hsource d hkept
  · rw [Bool.eq_false_iff]
    intro hbelow
    refine hfresh p hp hnone row hrow (Option.some.inj ?_)
    rw [← hid, (below_iff.mp hbelow).1]

/-! ## The invariant -/

/-- A row read earlier still describes the split: same contents, and at least as much applied. -/
def Store.Held (s : Store) (r : SplitRow) : Prop :=
  ∃ r' ∈ s.splits.rows, r'.splitId = r.splitId ∧ r'.streamId = r.streamId ∧ r'.docs = r.docs ∧
    r.tombstoneSeqApplied ≤ r'.tombstoneSeqApplied

theorem Store.Held.of_mem (hr : r ∈ s.splits.rows) : s.Held r :=
  ⟨r, hr, rfl, rfl, rfl, le_rfl⟩

theorem Store.Held.later (h : s.Held r) (hlater : s.Later s') : s'.Held r := by
  obtain ⟨r', hr', hid, hstream, hdocs, hle⟩ := h
  obtain ⟨r'', hr'', hid', hstream', hdocs', hle'⟩ := hlater.splits r' hr'
  exact ⟨r'', hr'', hid'.trans hid, hstream'.trans hstream, hdocs'.trans hdocs, hle.trans hle'⟩

def SourcesOk (s : Store) (streamId : ℤ) (sources : List SplitRow) : Prop :=
  ∀ r ∈ sources, s.Held r ∧ r.streamId = streamId ∧ 0 ≤ r.tombstoneSeqApplied

def Leader.Ok (s : Store) : Leader → Prop
  | .idle => True
  | .listing streamId sources list => ListOk s streamId list ∧ SourcesOk s streamId sources
  | .listed streamId sources list => ListDone s streamId list ∧ SourcesOk s streamId sources
  | .staged streamId sources list group newId =>
    (ListDone s streamId list ∧ SourcesOk s streamId sources) ∧ group ⊆ sources ∧
      newId ∉ group.map SplitRow.splitId ∧
      ∃ fresh, ∃ r ∈ s.splits.rows, r.splitId = newId ∧ r.streamId = streamId ∧
        r.docs = rebuildDocs fresh list group

theorem SourcesOk.later (h : SourcesOk s streamId sources) (hlater : s.Later s') :
    SourcesOk s' streamId sources :=
  fun r hr => ⟨(h r hr).1.later hlater, (h r hr).2⟩

theorem Leader.Ok.later (h : l.Ok s) (hs : s.Ok) (hlater : s.Later s') : l.Ok s' := by
  cases l with
  | idle => trivial
  | listing streamId sources list | listed streamId sources list =>
    exact ⟨h.1.later hs hlater, h.2.later hlater⟩
  | staged streamId sources list group newId =>
    obtain ⟨⟨hlist, hsources⟩, hsub, hnew, fresh, r, hr, hid, hstream, hdocs⟩ := h
    obtain ⟨r', hr', hid', hstream', hdocs', -⟩ := hlater.splits r hr
    exact ⟨⟨hlist.later hs hlater, hsources.later hlater⟩, hsub, hnew, fresh, r', hr',
      hid'.trans hid, hstream'.trans hstream, hdocs'.trans hdocs⟩

/-- **A tombstone of the table that a split has applied hides nothing in it.** -/
def Store.TableApplied (s : Store) : Prop :=
  ∀ r ∈ s.splits.rows, ∀ row ∈ s.tombstones, row.seq ≤ r.tombstoneSeqApplied → HidesNothing row r

structure Base (s : State) : Prop where
  store : s.store.Ok
  leader : s.leader.Ok s.store
  applied : s.store.TableApplied

theorem Base.init : Base State.init where
  store := .init
  leader := trivial
  applied := fun _ hr => by cases hr

/-! ### Writers -/

theorem WriterStep.ok {a : Writer} (h : WriterStep s a s') (hs : s.Ok) : s'.Ok ∧ s.Later s' := by
  cases h with
  | tick millis =>
    refine ⟨{ hs with createdAt_le := fun row hrow => ?_ },
      { Later.refl s with clock := Nat.le_add_right _ _ }⟩
    exact (hs.createdAt_le row hrow).trans (Nat.le_add_right _ _)
  | upsert items gap => exact ⟨hs.upsertTombstones items gap, hs.later_upsertTombstones items gap⟩
  | stage hne hnew hrows =>
    refine ⟨hs.withSplits ?_, s.later_withSplits ?_⟩ <;> rw [hrows]
    · refine forall_mem_cons.mpr ⟨⟨le_rfl, hs.pos⟩, hs.applied⟩
    · grind
  | publish splitId =>
    have hmoved := Moved.publish s.splits splitId
    exact ⟨hs.moved hmoved, s.later_moved hmoved⟩
  | markForDelete splitIds =>
    have hmoved := Moved.markSplitsForDelete s.splits splitIds
    exact ⟨hs.moved hmoved, s.later_moved hmoved⟩
  | retire streamId =>
    have hmoved : Moved s.splits (s.splits.setState (fun r => r.streamId == streamId)
      .markedForDelete) := .setState _ (.inl rfl)
    have hrem := s.later_removeRows fun row => row.streamId == streamId
    exact ⟨(hs.removeRows _).moved hmoved, hrem.trans (later_moved _ hmoved)⟩

theorem HidesNothing.congr (h : HidesNothing row r) (hstream : r'.streamId = r.streamId)
    (hdocs : r'.docs = r.docs) : HidesNothing row r' := by
  intro d hd
  rw [hstream]
  exact h d (hdocs ▸ hd)

theorem Store.TableApplied.of_source (h : s.TableApplied) (hs : s.Ok) (hlater : s.Later s')
    (hsource : ∃ r ∈ s.splits.rows, r'.streamId = r.streamId ∧ r'.docs = r.docs ∧
      r'.tombstoneSeqApplied = r.tombstoneSeqApplied) :
    ∀ row ∈ s'.tombstones, row.seq ≤ r'.tombstoneSeqApplied → HidesNothing row r' := by
  intro row hrow hle
  obtain ⟨r, hr, hstream, hdocs, happ⟩ := hsource
  rw [happ] at hle
  rcases hlater.table row hrow with hold | hnew
  · exact (h r hr row hold hle).congr hstream hdocs
  · exact absurd (hle.trans_lt (hs.applied r hr).2) hnew.not_gt

theorem Store.TableApplied.of_moved (h : s.TableApplied) (hs : s.Ok) (hlater : s.Later s')
    (hmoved : Moved s.splits s'.splits) : s'.TableApplied := by
  intro r' hr'
  obtain ⟨r, hr, -, hstream, hdocs, happ, -⟩ := hmoved.source r' hr'
  exact h.of_source hs hlater ⟨r, hr, hstream, hdocs, happ⟩

theorem WriterStep.moved {a : Writer} (h : WriterStep s a s') (hs : s.Ok) :
    Moved s.splits s'.splits ∨ ∃ splitId streamId docs, a = .stage splitId streamId docs ∧
      s'.splits.rows = ⟨splitId, streamId, .staged, 0, docs⟩ :: s.splits.rows := by
  cases h with
  | tick millis => exact .inl (.of_eq rfl)
  | upsert items gap => exact .inl (.of_eq (hs.upsertTombstones_frame items gap).1)
  | stage hne hnew hrows => exact .inr ⟨_, _, _, rfl, hrows⟩
  | publish splitId => exact .inl (.publish _ _)
  | markForDelete splitIds => exact .inl (.markSplitsForDelete _ _)
  | retire streamId => exact .inl (.setState _ (.inl rfl))

theorem WriterStep.tableApplied {a : Writer} (h : WriterStep s a s') (hs : s.Ok) (ht : s.TableApplied) :
    s'.TableApplied := by
  obtain ⟨hs', hlater⟩ := h.ok hs
  rcases h.moved hs with hmoved | ⟨splitId, streamId, docs, -, hrows⟩
  · exact ht.of_moved hs hlater hmoved
  · intro r hr row hrow hle
    rw [hrows] at hr
    rcases mem_cons.mp hr with rfl | hr
    · -- a new split has applied nothing, and sequences start at 1
      exact absurd hle (hs'.seq_mem row (hs'.table_sub hrow)).1.not_ge
    · exact ht.of_source hs hlater ⟨r, hr, rfl, rfl, rfl⟩ row hrow hle

theorem WriterStep.removed {a : Writer} (h : WriterStep s a s') (hs : s.Ok) (hrow : row ∈ s'.removed) :
    row ∈ s.removed ∨ ∃ streamId, a = .retire streamId ∧ row ∈ s.tombstones ∧
      row.streamId = streamId := by
  cases h with
  | tick | stage | publish | markForDelete => exact .inl hrow
  | upsert items gap => exact .inl ((hs.upsertTombstones_frame items gap).2.1 ▸ hrow)
  | retire streamId =>
    refine (mem_removed_removeRows.mp hrow).imp_right fun hgone => ?_
    grind

/-! ### The leader -/

theorem keptDocs_below (hsorted : Feed.Sorted seqOf list) (hrow : row ∈ list)
    (happlied : 0 ≤ source.tombstoneSeqApplied) (hstream : row.streamId = source.streamId)
    (h : row.seq ≤ source.tombstoneSeqApplied → HidesNothing row source) :
    ∀ d ∈ keptDocs list source, below row.toTombstone d = false := by
  intro d hd
  obtain ⟨hmem, hpending⟩ := (mem_keptDocs hsorted happlied).mp hd
  rcases le_or_gt row.seq source.tombstoneSeqApplied with hle | hlt
  · exact (h hle).below hstream hmem
  · exact hpending row hrow hlt

theorem keptDocs_eq_docs (h : (rewriteReader list source).excluded = []) :
    keptDocs list source = source.docs := by
  rw [keptDocs, h]
  simp

theorem mem_markTombstonesApplied {t : Splits} {splitId : String} {through : ℤ} :
    r' ∈ (t.markTombstonesApplied splitId through).rows ↔ ∃ r ∈ t.rows, r' = if r.splitId = splitId then
        { r with tombstoneSeqApplied := max r.tombstoneSeqApplied through } else r := by
  simp only [Splits.markTombstonesApplied, List.mem_map, eq_comm]

theorem Store.Held.docs_eq (h : s.Held source) (hr : r ∈ s.splits.rows)
    (hid : r.splitId = source.splitId) : r.streamId = source.streamId ∧ r.docs = source.docs := by
  obtain ⟨r', hr', hid', hstream, hdocs, -⟩ := h
  obtain rfl := s.splits.eq_of_splitId hr hr' (hid.trans hid'.symm)
  exact ⟨hstream, hdocs⟩

theorem Store.TableApplied.held (h : s.TableApplied) (hheld : s.Held source) (hrow : row ∈ s.tombstones)
    (hle : row.seq ≤ source.tombstoneSeqApplied) : HidesNothing row source := by
  obtain ⟨r, hr, -, hstream, hdocs, happ⟩ := hheld
  exact (h r hr row hrow (hle.trans happ)).congr hstream.symm hdocs.symm

/-- **A rewrite copies what `Control.rebuilt` says**: the reader of a source, with its shortcuts, excludes
what the pending rows of the list hide. -/
theorem rebuildDocs_eq_rebuilt (hlist : ListOk s streamId list) (hsources : SourcesOk s streamId sources)
    (hsub : group ⊆ sources) :
    rebuildDocs fresh list group = rebuilt fresh (list.map Row.toTombstone) group := by
  refine congrArg (mapIdx (identity fresh)) (flatMap_congr fun source hsource => ?_)
  obtain ⟨-, hstream, happlied⟩ := hsources source (hsub hsource)
  refine filter_congr fun d hd => ?_
  have hmem : d ∈ Visibility.keptDocs list source ↔ _ := mem_keptDocs hlist.sorted happlied
  rw [Visibility.keptDocs, mem_filter, and_iff_right hd] at hmem
  rw [Bool.eq_iff_iff, hmem, and_iff_right hd, Bool.not_eq_true', Control.hidden,
    List.any_eq_false]
  simp only [mem_filter, List.mem_map, decide_eq_true_eq]
  constructor
  · rintro h _ ⟨⟨row, hrow, rfl⟩, hlt⟩ hhides
    exact Bool.eq_false_iff.mp (h row hrow hlt) (hides_iff.mp hhides).2
  · intro h row hrow hlt
    rw [Bool.eq_false_iff]
    intro hbelow
    exact h _ ⟨⟨row, hrow, rfl⟩, hlt⟩ (hides_iff.mpr ⟨(hlist.mem row hrow).2.trans hstream.symm, hbelow⟩)

theorem Store.TableApplied.keptDocs (ht : s.TableApplied) (hlist : ListOk s streamId list)
    (hsources : SourcesOk s streamId sources) (hrow : row ∈ s.tombstones)
    (hstream : row.streamId = streamId) (hle : row.seq ≤ Feed.last seqOf list)
    (hsource : source ∈ sources) :
    ∀ d ∈ Visibility.keptDocs list source, below row.toTombstone d = false := by
  obtain ⟨hheld, hstr, happ⟩ := hsources source hsource
  have hmem : row ∈ list := hlist.caught row (mem_table.mpr ⟨hrow, hstream⟩) hle
  exact keptDocs_below hlist.sorted hmem happ (hstream.trans hstr.symm) (ht.held hheld hrow)

theorem LeaderStep.ok (h : LeaderStep grace s l a s' l') (hs : s.Ok) (hl : l.Ok s) :
    s'.Ok ∧ s.Later s' := by
  cases h with
  | select | page | lastPage | logMode | conflict | finish => exact ⟨hs, .refl s⟩
  | drop hsub hnil =>
    exact ⟨hs.moved (.markSplitsForDelete _ _), s.later_moved (.markSplitsForDelete _ _)⟩
  | stage hsub hfresh hnew hrows =>
    obtain ⟨hlist, -⟩ := hl
    refine ⟨hs.withSplits ?_, s.later_withSplits ?_⟩ <;> rw [hrows]
    · exact forall_mem_cons.mpr ⟨⟨hlist.last_nonneg hs, hlist.last_lt hs⟩, hs.applied⟩
    · grind
  | swap hswap =>
    have hmoved := Moved.swapSplits hswap
    exact ⟨hs.moved hmoved, s.later_moved hmoved⟩
  | markApplied hmem hnone =>
    obtain ⟨hlist, -⟩ := hl
    refine ⟨hs.withSplits fun r' hr' => ?_, s.later_withSplits fun r hr => ?_⟩
    · obtain ⟨r, hr, rfl⟩ := mem_markTombstonesApplied.mp hr'
      have happ := hs.applied r hr
      split
      · exact ⟨le_max_of_le_left happ.1, max_lt happ.2 (hlist.last_lt hs)⟩
      · exact happ
    · refine ⟨_, mem_markTombstonesApplied.mpr ⟨r, hr, rfl⟩, ?_⟩
      grind
  | purge => exact ⟨hs.removeRows _, s.later_removeRows _⟩

theorem LeaderStep.removed (h : LeaderStep grace s l a s' l') (hrow : row ∈ s'.removed) :
    row ∈ s.removed ∨ ∃ picked, a = .purge picked ∧ row ∈ s.tombstones ∧
      picked.contains row.seq = true ∧ s.purgeable grace row = true := by
  cases h with
  | @purge picked =>
    refine (mem_removed_removeRows.mp hrow).imp_right fun hgone => ?_
    grind
  | _ => exact .inl hrow

theorem LeaderStep.committed (h : LeaderStep grace s l a s' l') : s'.committed = s.committed := by
  cases h <;> rfl

theorem LeaderStep.issued (h : LeaderStep grace s l a s' l') : s'.issued = s.issued := by
  cases h <;> rfl

theorem LeaderStep.leader (h : LeaderStep grace s l a s' l') (hs : s.Ok) (hl : l.Ok s) : l'.Ok s' := by
  obtain ⟨hs', hlater⟩ := h.ok hs hl
  cases h with
  | select hsel =>
    refine ⟨.nil hs _, fun r hr => ?_⟩
    obtain ⟨hmem, -, hstream⟩ := hsel.2 r hr
    exact ⟨.of_mem hmem, hstream, (hs.applied r hmem).1⟩
  | page => exact ⟨hl.1.page hs _, hl.2⟩
  | lastPage hshort => exact ⟨.of_short hl.1 hs hshort, hl.2⟩
  | logMode => exact ⟨.nil hs _, hl.2⟩
  | drop | markApplied => exact hl.later hs hlater
  | stage hsub hfresh hnew hrows =>
    refine ⟨hl.later hs hlater, hsub, fun hmem => hnew ?_, _, _, hrows.symm ▸ mem_cons_self, rfl, rfl, rfl⟩
    -- every source still has its row, so the new id is none of theirs
    obtain ⟨g, hg, rfl⟩ := List.mem_map.mp hmem
    obtain ⟨r, hr, hid, -⟩ := (hl.2 g (hsub hg)).1
    exact hid ▸ List.mem_map_of_mem hr
  | swap | conflict => exact Leader.Ok.later (l := .listed _ _ _) hl.1 hs hlater
  | finish | purge => trivial

theorem LeaderStep.tableApplied (h : LeaderStep grace s l a s' l') (hs : s.Ok) (hl : l.Ok s)
    (ht : s.TableApplied) : s'.TableApplied := by
  obtain ⟨hs', hlater⟩ := h.ok hs hl
  cases h with
  | select | page | lastPage | logMode | conflict | finish => exact ht
  | drop hsub hnil => exact ht.of_moved hs hlater (.markSplitsForDelete _ _)
  | stage hsub hfresh hnew hrows =>
    obtain ⟨hlist, hsources⟩ := hl
    intro r hr row hrow hle
    rw [withSplits, hrows] at hr
    rcases mem_cons.mp hr with rfl | hr
    · refine hidesNothing_of_below fun hstream => ?_
      refine rebuildDocs_below hfresh (hs.table_sub hrow) fun source hsource => ?_
      exact ht.keptDocs hlist.toListOk hsources hrow hstream hle (hsub hsource)
    · exact ht r hr row hrow hle
  | swap hswap => exact ht.of_moved hs hlater (.swapSplits hswap)
  | markApplied hmem hnone =>
    obtain ⟨hlist, hsources⟩ := hl
    intro r' hr' row hrow hle
    obtain ⟨r, hr, rfl⟩ := mem_markTombstonesApplied.mp hr'
    split at hle
    · next hid =>
        rcases le_max_iff.mp hle with hold | hnew
        · rw [if_pos hid]
          exact ht r hr row hrow hold
        · -- the check found nothing hidden, and the list has the row
          obtain ⟨hstr, hdocs⟩ := (hsources _ hmem).1.docs_eq hr hid
          rw [if_pos hid]
          refine hidesNothing_of_below fun hstream d hd => ?_
          refine ht.keptDocs hlist.toListOk hsources hrow ?_ hnew hmem d ?_
          · exact (hstream.trans hstr).trans (hsources _ hmem).2.1
          · grind [keptDocs_eq_docs]
    · next hid =>
        rw [if_neg hid]
        exact ht r hr row hrow hle
  | purge => exact ht.of_moved hs hlater (.of_eq rfl)

/-! ### Every step -/

theorem Base.upsert {s : State} (h : Base s) (items : List NewTombstone) (gap : ℕ) (node : Node) :
    Base { s with store := s.store.upsertTombstones items gap, node } := by
  have hstep := WriterStep.upsert (s := s.store) items gap
  obtain ⟨hs', hlater⟩ := hstep.ok h.store
  exact ⟨hs', h.leader.later h.store hlater, hstep.tableApplied h.store h.applied⟩

theorem step_cases {s s' : State} {a : Action} (h : step grace stream s a = some s') :
    (∃ b store, a = .writer b ∧ WriterStep s.store b store ∧ s' = { s with store }) ∨
    (∃ b store leader, a = .leader b ∧ LeaderStep grace s.store s.leader b store leader ∧
      s' = { s with store, leader }) ∨
    (∃ b node, a = .node b ∧ nodeStep stream s.store s.node b = some node ∧ s' = { s with node }) ∨
    (∃ items gap, a = .write items gap ∧ s' = { s with
      store := s.store.upsertTombstones items gap
      node := { s.node with unanswered := s.node.unanswered ++ [items] } }) := by
  cases a with
  | writer b =>
    obtain ⟨store, hstore, rfl⟩ := map_eq_some_iff.mp h
    exact .inl ⟨b, store, rfl, writerStep_of_writer hstore, rfl⟩
  | leader b =>
    obtain ⟨⟨store, leader⟩, hpair, rfl⟩ := map_eq_some_iff.mp h
    exact .inr (.inl ⟨b, store, leader, rfl, leaderStep_cases hpair, rfl⟩)
  | node b =>
    obtain ⟨node, hnode, rfl⟩ := map_eq_some_iff.mp h
    grind
  | write items gap =>
    cases h
    grind

theorem Base.step {s s' : State} {a : Action} (h : Base s) (hstep : step grace stream s a = some s') :
    Base s' ∧ s.store.Later s'.store := by
  obtain ⟨b, store, -, hw, rfl⟩ | ⟨b, store, leader, -, hl, rfl⟩ | ⟨b, node, -, -, rfl⟩ |
    ⟨items, gap, -, rfl⟩ := step_cases hstep
  · obtain ⟨hs', hlater⟩ := hw.ok h.store
    exact ⟨⟨hs', h.leader.later h.store hlater, hw.tableApplied h.store h.applied⟩, hlater⟩
  · obtain ⟨hs', hlater⟩ := hl.ok h.store h.leader
    exact ⟨⟨hs', hl.leader h.store h.leader, hl.tableApplied h.store h.leader h.applied⟩, hlater⟩
  · exact ⟨⟨h.store, h.leader, h.applied⟩, .refl _⟩
  · exact ⟨h.upsert items gap _, h.store.later_upsertTombstones items gap⟩

theorem Base.of_run {as : List Action} {s : State}
    (hrun : Runs.run (Visibility.step grace stream) .init as = some s) : Base s :=
  Runs.run_invariant_always _ (fun _ _ _ h hstep => (h.step hstep).1) Base.init hrun

end RSearch.Visibility
