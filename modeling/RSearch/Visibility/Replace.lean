import RSearch.Visibility.Invalidate

/-!
# Replacing a document

Writing a document again is a new version in a later split and a tombstone that hides the versions below
it.  The write path upserts the tombstone once the pipeline has accepted the new version; the version is
published when its batch is flushed.  In between neither is visible.
-/

namespace RSearch.Visibility

open List Option Control Store

def Store.Standing (s : Store) (stream : ℤ) (d : Doc) : Prop :=
  ∀ row ∈ s.committed, row.streamId = stream → below row.toTombstone d = false

instance (s : Store) (stream : ℤ) (d : Doc) : Decidable (s.Standing stream d) :=
  inferInstanceAs (Decidable (∀ row ∈ s.committed, _))

def Store.Carried (s : Store) (stream : ℤ) (id : String) (splits : List SplitRow) : Prop :=
  ∃ r ∈ splits, ∃ d ∈ r.docs, d.id = some id ∧ s.Standing stream d

instance (s : Store) (stream : ℤ) (id : String) (splits : List SplitRow) :
    Decidable (s.Carried stream id splits) :=
  inferInstanceAs (Decidable (∃ r ∈ splits, _))

/-- **The document is visible to searches**: a version is published and not hidden. -/
def Store.Visible (s : Store) (stream : ℤ) (id : String) : Prop :=
  s.Carried stream id (s.published stream)

instance (s : Store) (stream : ℤ) (id : String) : Decidable (s.Visible stream id) :=
  inferInstanceAs (Decidable (s.Carried stream id _))

def HoldsVersion (id : String) (beforeSeq : ℤ) (splits : List SplitRow) : Prop :=
  ∃ r ∈ splits, ∃ d ∈ r.docs, d.id = some id ∧ beforeSeq ≤ d.seq

instance (id : String) (beforeSeq : ℤ) (splits : List SplitRow) :
    Decidable (HoldsVersion id beforeSeq splits) :=
  inferInstanceAs (Decidable (∃ r ∈ splits, _))

def Stage.shown : Stage → List Doc
  | .searching _ _ _ shown | .done _ _ shown => shown
  | _ => []

def Found (id : String) (shown : List Doc) : Prop := ∃ d ∈ shown, d.id = some id

instance (id : String) (shown : List Doc) : Decidable (Found id shown) :=
  inferInstanceAs (Decidable (∃ d ∈ shown, _))

def Stage.inFlight : Stage → Bool
  | .started | .done .. | .failed => false
  | _ => true

/-- The bounds of the batch for this document are those of versions that are published already, and
in the hands of every search in flight. -/
def ReplacesPublished (stream : ℤ) (id : String) (s : State) (items : List NewTombstone) : Prop :=
  ∀ t ∈ items, t.streamId = stream → t.docId = id →
    HoldsVersion id t.beforeSeq (s.store.published stream) ∧
      ∀ q ∈ s.node.searches, q.stage.inFlight = true →
        HoldsVersion id t.beforeSeq q.stage.todo ∨ Found id q.stage.shown

instance (stream : ℤ) (id : String) (s : State) (items : List NewTombstone) :
    Decidable (ReplacesPublished stream id s items) :=
  inferInstanceAs (Decidable (∀ t ∈ items, _))

/-- The condition on a step, for one document: its tombstones come after the versions they belong
to, and neither retention nor the deletion of the index takes its splits. -/
def KeepsDocument (stream : ℤ) (id : String) (s : State) : Action → Prop
  | .writer (.upsert items _) | .write items _ => ReplacesPublished stream id s items
  | .writer (.markForDelete splitIds) => ∀ r ∈ s.store.published stream,
      splitIds.contains r.splitId = true → ∀ d ∈ r.docs, d.id ≠ some id
  | .writer (.retire streamId) => streamId ≠ stream
  | _ => True

instance (stream : ℤ) (id : String) (s : State) (a : Action) :
    Decidable (KeepsDocument stream id s a) := by
  induction a using Action.casesOn with
  | writer b => induction b using Writer.casesOn <;> dsimp only [KeepsDocument] <;> infer_instance
  | _ => dsimp only [KeepsDocument]; infer_instance

/-! ## The latest version stands -/

variable {splits : List SplitRow} {id : String} {s s' : Store} {stream : ℤ} {d : Doc} {r : SplitRow}
  {list : List Row} {grace k : ℕ} {a : NodeAction} {stage : Stage}

theorem exists_latest (h : ∃ r ∈ splits, ∃ d ∈ r.docs, d.id = some id) :
    ∃ r ∈ splits, ∃ d ∈ r.docs, d.id = some id ∧
      ∀ r' ∈ splits, ∀ d' ∈ r'.docs, d'.id = some id → d'.seq ≤ d.seq := by
  let versions := (splits.flatMap SplitRow.docs).filter fun d => d.id == some id
  have hmem : ∀ d, d ∈ versions ↔ (∃ r ∈ splits, d ∈ r.docs) ∧ d.id = some id := by
    grind
  obtain ⟨r, hr, d, hd, hid⟩ := h
  obtain ⟨m, hm, hmax⟩ := Finset.exists_max_image versions.toFinset Doc.seq
    ⟨d, List.mem_toFinset.mpr ((hmem d).mpr ⟨⟨r, hr, hd⟩, hid⟩)⟩
  obtain ⟨⟨rm, hrm, hmd⟩, hmid⟩ := (hmem m).mp (List.mem_toFinset.mp hm)
  refine ⟨rm, hrm, m, hmd, hmid, fun r' hr' d' hd' hid' => ?_⟩
  exact hmax d' (List.mem_toFinset.mpr ((hmem d').mpr ⟨⟨r', hr', hd'⟩, hid'⟩))

theorem Store.Standing.le_seq (h : s.Standing stream d) (hid : d.id = some id) {row : Row}
    (hrow : row ∈ s.committed) (hstream : row.streamId = stream) (hdoc : row.docId = id) :
    row.beforeSeq ≤ d.seq := by
  by_contra hlt
  have hfalse := h row hrow hstream
  grind [below_iff]

theorem Store.Carried.upsert {s : Store} {stream : ℤ} {id : String} {splits : List SplitRow}
    (h : s.Carried stream id splits) {items : List NewTombstone} (gap : ℕ)
    (hitems : ∀ t ∈ items, t.streamId = stream → t.docId = id → HoldsVersion id t.beforeSeq splits) :
    (s.upsertTombstones items gap).Carried stream id splits := by
  obtain ⟨r₀, hr₀, d₀, hd₀, hid₀, hstanding⟩ := h
  obtain ⟨r, hr, d, hd, hid, hlatest⟩ := exists_latest ⟨r₀, hr₀, d₀, hd₀, hid₀⟩
  refine ⟨r, hr, d, hd, hid, fun row hrow hstream => ?_⟩
  rw [Bool.eq_false_iff]
  intro hbelow
  obtain ⟨hrid, hlt⟩ := below_iff.mp hbelow
  have hdoc : row.docId = id := Option.some.inj (hrid.symm.trans hid)
  rcases mem_upsertTombstones hrow with hold | hnew
  · have hle := hstanding.le_seq hid₀ hold hstream hdoc
    grind
  · obtain ⟨r', hr', d', hd', hid', hle⟩ := hitems _ hnew hstream hdoc
    grind

theorem Store.Carried.congr (h : s.Carried stream id splits) (hcommitted : s'.committed = s.committed) :
    s'.Carried stream id splits := by
  obtain ⟨r, hr, d, hd, hid, hstanding⟩ := h
  exact ⟨r, hr, d, hd, hid, fun row hrow => hstanding row (hcommitted ▸ hrow)⟩

/-! ## Published versions stay published -/

theorem mem_published :
    r ∈ s.published stream ↔ r ∈ s.splits.rows ∧ r.streamId = stream ∧ r.state = .published := by
  grind [published]

theorem Store.Visible.of_kept (h : s.Visible stream id) (hcommitted : s'.committed = s.committed)
    (hkept : ∀ r ∈ s.published stream, ∀ d ∈ r.docs, d.id = some id → s.Standing stream d →
      ∃ r' ∈ s'.published stream, d ∈ r'.docs) : s'.Visible stream id := by
  obtain ⟨r, hr, d, hd, hid, hstanding⟩ := h
  obtain ⟨r', hr', hd'⟩ := hkept r hr d hd hid hstanding
  exact ⟨r', hr', d, hd', hid, fun row hrow => hstanding row (hcommitted ▸ hrow)⟩

theorem published_setState {p : SplitRow → Bool} {st : SplitState} (hr : r ∈ s.published stream)
    (hp : p r = false) : r ∈ (s.withSplits (s.splits.setState p st)).published stream := by
  obtain ⟨hmem, hpub⟩ := mem_published.mp hr
  refine mem_published.mpr ⟨Splits.mem_setState.mpr ⟨r, hmem, ?_⟩, hpub⟩
  rw [hp]
  rfl

theorem WriterStep.visible {b : Writer} (h : WriterStep s b s') (hvis : s.Visible stream id) (hs : s.Ok)
    (hupsert : ∀ items gap, b = .upsert items gap → ∀ t ∈ items, t.streamId = stream →
      t.docId = id → HoldsVersion id t.beforeSeq (s.published stream))
    (hmark : ∀ splitIds, b = .markForDelete splitIds → ∀ r ∈ s.published stream,
      splitIds.contains r.splitId = true → ∀ d ∈ r.docs, d.id ≠ some id) (hretire : b ≠ .retire stream) :
    s'.Visible stream id := by
  cases h with
  | tick millis => exact hvis
  | upsert items gap =>
    have hcarried := hvis.upsert gap (hupsert items gap rfl)
    rw [Store.Visible, Store.published, (hs.upsertTombstones_frame items gap).1]
    exact hcarried
  | stage hne hnew hrows =>
    refine hvis.of_kept rfl fun r hr d hd _ _ => ⟨r, mem_published.mpr ?_, hd⟩
    grind [mem_published, withSplits]
  | publish splitId =>
    refine hvis.of_kept rfl fun r hr d hd _ _ => ⟨r, published_setState hr ?_, hd⟩
    grind [mem_published]
  | markForDelete splitIds =>
    refine hvis.of_kept rfl fun r hr d hd hid _ => ⟨r, published_setState hr ?_, hd⟩
    rw [Bool.and_eq_false_iff, Bool.eq_false_iff]
    exact .inl fun hcontains => hmark splitIds rfl r hr hcontains d hd hid
  | retire streamId =>
    refine hvis.of_kept rfl fun r hr d hd _ _ => ⟨r, ?_, hd⟩
    refine published_setState (s := s.removeRows _) hr ?_
    grind [mem_published]

theorem Store.Standing.mem_rebuildDocs (h : s.Standing stream d) {sources group : List SplitRow}
    (hlist : ListOk s stream list) (hsources : SourcesOk s stream sources) (hsub : group ⊆ sources)
    {source : SplitRow} (hsource : source ∈ group) (hd : d ∈ source.docs) (hid : d.id = some id)
    (fresh : ℕ → String) : d ∈ rebuildDocs fresh list group := by
  obtain ⟨-, -, happ⟩ := hsources source (hsub hsource)
  refine mem_rebuildDocs_of_id hsource ((mem_keptDocs hlist.sorted happ).mpr ⟨hd, ?_⟩) hid
  exact fun row hrow _ => h row (hlist.mem row hrow).1 (hlist.mem row hrow).2

theorem swapSplits_published {t t' : Splits} {oldIds : List String} {newId : String}
    (h : t.swapSplits oldIds newId = some t') :
    (∀ r ∈ t.rows, r.state = .published → r.splitId ∉ oldIds → r ∈ t'.rows) ∧
      (newId ∉ oldIds → ∃ r ∈ t.rows, r.splitId = newId ∧
        { r with state := .published } ∈ t'.rows) := by
  unfold Splits.swapSplits at h
  dsimp only at h
  split at h
  · next hany =>
      cases h
      constructor
      · grind [Splits.mem_setState]
      · intro hnew
        obtain ⟨r, hr, hstaged⟩ := List.any_eq_true.mp hany
        have hid := beq_iff_eq.mp (Bool.and_eq_true_iff.mp hstaged).1
        refine ⟨r, hr, hid, Splits.mem_setState.mpr ⟨{ r with state := .published },
          Splits.mem_setState.mpr ⟨r, hr, ?_⟩, ?_⟩⟩
        · rw [if_pos hstaged]
        · grind
  · cases h

theorem LeaderStep.visible {l l' : Leader} {b : LeaderAction} (h : LeaderStep grace s l b s' l')
    (hvis : s.Visible stream id) (hl : l.Ok s) : s'.Visible stream id := by
  cases h with
  | select | page | lastPage | logMode | conflict | finish | purge => exact hvis
  | @drop streamId sources group list fresh newId hsub hnil =>
    obtain ⟨hlist, hsources⟩ := hl
    refine hvis.of_kept rfl fun r hr d hd hid hstanding => ⟨r, published_setState hr ?_, hd⟩
    rw [Bool.and_eq_false_iff, Bool.eq_false_iff]
    refine .inl fun hcontains => ?_
    -- otherwise the rewrite would have kept the document
    obtain ⟨source, hsource, heq⟩ := List.mem_map.mp (contains_iff_mem.mp hcontains)
    obtain ⟨hmem, hstream, -⟩ := mem_published.mp hr
    obtain ⟨hheld, hstr, -⟩ := hsources source (hsub hsource)
    obtain ⟨hrstr, hdocs⟩ := hheld.docs_eq hmem heq.symm
    obtain rfl : streamId = stream := hstr.symm.trans (hrstr.symm.trans hstream)
    have hkept := hstanding.mem_rebuildDocs hlist.toListOk hsources hsub hsource (hdocs ▸ hd) hid fresh
    rw [hnil] at hkept
    cases hkept
  | stage hsub hfresh hnew hrows =>
    refine hvis.of_kept rfl fun r hr d hd _ _ => ⟨r, mem_published.mpr ?_, hd⟩
    grind [mem_published, withSplits]
  | @swap streamId sources group list newId splits hswap =>
    obtain ⟨⟨hlist, hsources⟩, hsub, hnew, fresh, n, hn, hnid, hnstr, hndocs⟩ := hl
    obtain ⟨hothers, hpublished⟩ := swapSplits_published hswap
    refine hvis.of_kept rfl fun r hr d hd hid hstanding => ?_
    obtain ⟨hmem, hstream, hpub⟩ := mem_published.mp hr
    by_cases hold : r.splitId ∈ group.map SplitRow.splitId
    · -- the document moves to the new split
      obtain ⟨source, hsource, heq⟩ := List.mem_map.mp hold
      obtain ⟨hheld, hstr, -⟩ := hsources source (hsub hsource)
      obtain ⟨hrstr, hdocs⟩ := hheld.docs_eq hmem heq.symm
      obtain rfl : streamId = stream := hstr.symm.trans (hrstr.symm.trans hstream)
      have hkept := hstanding.mem_rebuildDocs hlist.toListOk hsources hsub hsource (hdocs ▸ hd) hid fresh
      obtain ⟨n', hn', hnid', hpub'⟩ := hpublished hnew
      obtain rfl := s.splits.eq_of_splitId hn' hn (hnid'.trans hnid.symm)
      exact ⟨_, mem_published.mpr ⟨hpub', hnstr, rfl⟩, hndocs ▸ hkept⟩
    · exact ⟨r, mem_published.mpr ⟨hothers r hmem hpub hold, hstream, hpub⟩, hd⟩
  | markApplied hmem hnone =>
    refine hvis.of_kept rfl fun r hr d hd _ _ => ?_
    obtain ⟨hrow, hstream, hpub⟩ := mem_published.mp hr
    refine ⟨_, mem_published.mpr ⟨mem_markTombstonesApplied.mpr ⟨r, hrow, rfl⟩, ?_⟩, ?_⟩ <;> split
    · exact ⟨hstream, hpub⟩
    · exact ⟨hstream, hpub⟩
    · exact hd
    · exact hd

/-! ## Searches find it -/

def Stage.Finds (s : Store) (stream : ℤ) (id : String) (stage : Stage) : Prop :=
  match stage with
  | .started | .failed => True
  | .done _ _ shown => Found id shown
  | stage => s.Carried stream id stage.todo ∨ Found id stage.shown

structure Replacing (stream : ℤ) (id : String) (k : ℕ) (s : State) : Prop extends
    Whole stream s where
  visible : s.store.Visible stream id
  finds : ∀ j q, k ≤ j → s.node.searches[j]? = some q → q.stage.Finds s.store stream id

theorem Whole.shownDocs_of_standing {s : State} (h : Whole stream s) (hheld : HeldOk s.store stream r)
    (hlist : ListDone s.store stream list) (hd : d ∈ r.docs) (hstanding : s.store.Standing stream d) :
    d ∈ s.node.shownDocs list r := by
  unfold Node.shownDocs
  split
  · refine mem_filter.mpr ⟨hd, decide_eq_true fun hexcl => ?_⟩
    obtain ⟨row, hrow, hstream, hbelow⟩ := (h.node.readerAfter h.store hheld hlist).sound d hexcl
    rw [hstanding row hrow hstream] at hbelow
    cases hbelow
  · exact hd

theorem Replacing.moves {s : State} (h : Replacing stream id k s) {j : ℕ} {q : Search}
    {cache : Option Cache} {readers : String → Option ExclusionSet} (hj : k ≤ j)
    (hq : s.node.searches[j]? = some q) (hm : Moves stream s.store s.node j q a stage cache readers) :
    stage.Finds s.store stream id := by
  have hfinds := h.finds j q hj hq
  have hqok := h.node.searches q (mem_of_getElem? hq)
  cases hm with
  | readSplits hwas => exact .inl h.visible
  | hit hwas hfresh =>
    rcases hwas with hwas | hwas <;> rw [hwas] at hfinds <;> exact hfinds
  | miss hwas | refresh hwas | page hwas | lastPage hwas | store hwas =>
    rw [hwas] at hfinds
    exact hfinds
  | @searchSplit splits todo list shown split hwas hmem =>
    have hlist := hqok.list
    have hsub := hqok.todo
    rw [hwas] at hfinds hlist hsub
    rcases hfinds with ⟨r, hr, d, hd, hid, hstanding⟩ | ⟨d, hd, hid⟩
    · by_cases heq : r = split
      · subst heq
        refine .inr ⟨d, mem_append_right _ ?_, hid⟩
        exact h.shownDocs_of_standing (hqok.splits r (hwas ▸ hsub hr)) hlist hd hstanding
      · exact .inl ⟨r, (mem_erase_of_ne heq).mpr hr, d, hd, hid, hstanding⟩
    · exact .inr ⟨d, mem_append_left _ hd, hid⟩
  | finish hwas =>
    rw [hwas] at hfinds
    rcases hfinds with ⟨r, hr, -⟩ | hfound
    · cases hr
    · exact hfound
  | cancel => trivial

theorem Replacing.nodeStep {s : State} (h : Replacing stream id k s) {node : Node}
    (hnode : NodeStep stream s.store s.node a node) :
    ∀ j q, k ≤ j → node.searches[j]? = some q → q.stage.Finds s.store stream id := by
  cases hnode with
  | start =>
    intro j q hj hq
    rcases getElem?_append .. ▸ hq with hq
    split at hq
    · exact h.finds j q hj hq
    · rw [mem_singleton.mp (mem_of_getElem? hq)]
      trivial
  | @move a i q₀ stage cache readers hq₀ hm =>
    intro j q hj hq
    rw [getElem?_set] at hq
    split at hq
    · next heq =>
        subst heq
        split at hq
        · cases hq
          exact h.moves hj hq₀ hm
        · cases hq
    · exact h.finds j q hj hq
  | evict splitId | clear | answer hk => exact h.finds

theorem Stage.Finds.upsert {s : Store} {stream : ℤ} {id : String} {stage : Stage}
    (h : stage.Finds s stream id) {items : List NewTombstone} {gap : ℕ}
    (hitems : ∀ t ∈ items, t.streamId = stream → t.docId = id → stage.inFlight = true →
      HoldsVersion id t.beforeSeq stage.todo ∨ Found id stage.shown) :
    stage.Finds (s.upsertTombstones items gap) stream id := by
  have hinflight : stage.inFlight = true → s.Carried stream id stage.todo ∨ Found id stage.shown →
      (s.upsertTombstones items gap).Carried stream id stage.todo ∨ Found id stage.shown := by
    rintro hflight (hcarried | hfound)
    · by_cases hfound : Found id stage.shown
      · exact .inr hfound
      · refine .inl (hcarried.upsert gap fun t ht hstream hdoc => ?_)
        exact (hitems t ht hstream hdoc hflight).resolve_right hfound
    · exact .inr hfound
  cases stage with
  | started | failed | done => exact h
  | splitsRead | waiting | refreshing | fetched | searching => exact hinflight rfl h

theorem Stage.Finds.congr (h : stage.Finds s stream id) (hcommitted : s'.committed = s.committed) :
    stage.Finds s' stream id := by
  cases stage with
  | started | failed | done => exact h
  | splitsRead | waiting | refreshing | fetched | searching =>
    exact Or.imp_left (fun hc => Store.Carried.congr hc hcommitted) h

theorem Replacing.step {s s' : State} {a : Action} (h : Replacing stream id k s)
    (hcond : KeepsDocument stream id s a) (hstep : step grace stream s a = some s') :
    Replacing stream id k s' := by
  have hwhole := h.toWhole.step hstep
  obtain ⟨b, store, rfl, hw, rfl⟩ | ⟨b, store, leader, rfl, hl, rfl⟩ | ⟨b, node, rfl, hnode, rfl⟩ |
    ⟨items, gap, rfl, rfl⟩ := step_cases hstep
  · have hvis : store.Visible stream id := by
      refine hw.visible h.visible h.store ?_ ?_ ?_
      · rintro items gap rfl t ht hstream hdoc
        exact (hcond t ht hstream hdoc).1
      · rintro splitIds rfl
        exact hcond
      · rintro rfl
        exact hcond rfl
    refine ⟨hwhole, hvis, fun j q hj hq => ?_⟩
    have hfinds := h.finds j q hj hq
    cases hw with
    | upsert items gap =>
      refine hfinds.upsert fun t ht hstream hdoc => ?_
      exact (hcond t ht hstream hdoc).2 q (mem_of_getElem? hq)
    | tick | stage | publish | markForDelete | retire => exact hfinds.congr rfl
  · exact ⟨hwhole, hl.visible h.visible h.leader, fun j q hj hq => (h.finds j q hj hq).congr hl.committed⟩
  · exact ⟨hwhole, h.visible, h.nodeStep (nodeStep_cases hnode)⟩
  · have hvis : (s.store.upsertTombstones items gap).Visible stream id :=
      (WriterStep.upsert items gap).visible h.visible h.store
        (fun _ _ heq t ht hstream hdoc => by
          cases heq
          exact (hcond t ht hstream hdoc).1)
        (fun _ heq => by cases heq) (fun heq => by cases heq)
    refine ⟨hwhole, hvis, fun j q hj hq => ?_⟩
    refine (h.finds j q hj hq).upsert fun t ht hstream hdoc => ?_
    exact (hcond t ht hstream hdoc).2 q (mem_of_getElem? hq)

/-- **A replaced document stays visible.**  From any reachable state in which the document is
visible, along every run whose steps meet the condition, every search started later finds some version
of it when it is done. -/
theorem replaced_stays_visible {grace : ℕ} {stream : ℤ} {id : String} {as bs : List Action}
    {s₀ s : State} (hreach : Runs.run (step grace stream) .init as = some s₀)
    (hvisible : s₀.store.Visible stream id)
    (halong : Runs.Along (step grace stream) (KeepsDocument stream id) s₀ bs)
    (hrun : Runs.run (step grace stream) s₀ bs = some s) {j : ℕ} {q : Search}
    (hj : s₀.node.searches.length ≤ j) (hq : s.node.searches[j]? = some q) {splits : List SplitRow}
    {list : List Row} {shown : List Doc} (hdone : q.stage = .done splits list shown) :
    Found id shown := by
  have hwhole : Whole stream s₀ :=
    Runs.run_invariant_always _ (fun _ _ _ h hstep => h.step hstep) (.init stream) hreach
  have hstart : Replacing stream id s₀.node.searches.length s₀ := by
    refine ⟨hwhole, hvisible, fun i q hi hq => ?_⟩
    grind
  have hfinds := (Runs.run_invariant _ (fun _ _ _ h hcond hstep => h.step hcond hstep) hstart halong
    hrun).finds j q hj hq
  rw [hdone] at hfinds
  exact hfinds

/-! ## Runs -/

def secondA : Doc := ⟨1, some "a", 10⟩

/-- The new version of `a` is accepted and its tombstone committed; a search runs before the batch
with the new version is flushed. -/
def replacedEarly : List Action :=
  .write [⟨1, "a", 10⟩] 0 :: (refreshes 0 ++ NodeAction.storeList 0 ::
    searches 0 (publishedRow "S" [firstA])).map .node ++ ingest "T" [secondA]

/-- **A search between the tombstone of a replacement and the publication of the new version finds
neither.**  Both before and after it the document is visible; nothing was deleted. -/
theorem replaced_not_found :
    ∃ s₀ s, Runs.run (step 3600000 1) .init (ingest "S" [firstA]) = some s₀ ∧
      s₀.store.Visible 1 "a" ∧ Runs.run (step 3600000 1) s₀ replacedEarly = some s ∧
      s.store.Visible 1 "a" ∧
      ∃ q ∈ s.node.searches, ∃ splits list, q.stage = .done splits list [] := by
  obtain ⟨s₀, hrun₀, hvis₀, s, hrun, hvis, q, hq, d, hd, hempty⟩ :
      ∃ s₀, Runs.run (step 3600000 1) .init (ingest "S" [firstA]) = some s₀ ∧
        s₀.store.Visible 1 "a" ∧ ∃ s, Runs.run (step 3600000 1) s₀ replacedEarly = some s ∧
        s.store.Visible 1 "a" ∧
        ∃ q ∈ s.node.searches, ∃ d, q.stage.done? = some d ∧ d.2.2 = [] := by
    decide +kernel
  have hstage := Stage.eq_done_of_done? hd
  rw [hempty] at hstage
  exact ⟨s₀, s, hrun₀, hvis₀, hrun, hvis, q, hq, d.1, d.2.1, hstage⟩

def replacedInOrder : List Action :=
  ingest "T" [secondA] ++ .write [⟨1, "a", 10⟩] 0 :: (refreshes 0 ++ NodeAction.storeList 0 ::
    .searchSplit 0 (publishedRow "S" [firstA]) :: searches 0 (publishedRow "T" [secondA])).map .node

theorem replaced_stays_visible_replacedInOrder :
    ∃ s₀ s q splits list shown,
      Runs.run (step 3600000 1) .init (ingest "S" [firstA]) = some s₀ ∧
      Runs.run (step 3600000 1) s₀ replacedInOrder = some s ∧ s.node.searches[0]? = some q ∧
      q.stage = .done splits list shown ∧ Found "a" shown := by
  obtain ⟨s₀, hrun₀, hvis, hlen, halong, s, hrun, q, hq, hdone⟩ :
      ∃ s₀, Runs.run (step 3600000 1) .init (ingest "S" [firstA]) = some s₀ ∧
        s₀.store.Visible 1 "a" ∧ s₀.node.searches.length ≤ 0 ∧
        Runs.Along (step 3600000 1) (KeepsDocument 1 "a") s₀ replacedInOrder ∧
        ∃ s, Runs.run (step 3600000 1) s₀ replacedInOrder = some s ∧
        ∃ q, s.node.searches[0]? = some q ∧ q.stage.done?.isSome := by
    decide +kernel
  obtain ⟨d, hd⟩ := isSome_iff_exists.mp hdone
  have hstage := Stage.eq_done_of_done? hd
  exact ⟨s₀, s, q, d.1, d.2.1, d.2.2, hrun₀, hrun, hq, hstage,
    replaced_stays_visible hrun₀ hvis halong hrun hlen hq hstage⟩

end RSearch.Visibility
