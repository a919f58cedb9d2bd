import RSearch.Visibility.Readers

/-!
# Readers that exclude everything their list hides

A reader opened on a split starts at the split's `tombstone_seq_applied` and later lists only extend it.
What it excludes is complete up to its own sequence while that promise holds (`Visibility.Applied`) and
no tombstone is deleted that a search needs.
-/

namespace RSearch.Visibility

open List Control Store

def Store.Excused (s : Store) (stream : ℤ) (d : Doc) : Prop :=
  ∃ row ∈ s.removed, row.streamId = stream ∧ below row.toTombstone d = true

/-- The set has everything the tombstones up to its own sequence hide among the documents. -/
def Complete (s : Store) (stream : ℤ) (docs : List Doc) (set : ExclusionSet) : Prop :=
  ∀ row ∈ s.committed, row.streamId = stream → row.seq ≤ set.appliedThrough → ∀ d ∈ docs,
    below row.toTombstone d = true → d ∈ set.excluded ∨ s.Excused stream d

def ReaderComplete (s : Store) (stream : ℤ) (splitId : String) (set : ExclusionSet) : Prop :=
  ∃ r ∈ s.splits.rows, r.splitId = splitId ∧ Complete s stream r.docs set

/-- A tombstone is deleted only when no search in flight still has to go through a split in which
it hides something. -/
def NoneNeeded (s : State) : Action → Prop
  | .writer (.retire streamId) => ∀ row ∈ s.store.tombstones, row.streamId = streamId →
      ∀ q ∈ s.node.searches, ∀ r ∈ q.stage.todo, HidesNothing row r
  | .leader (.purge picked) => ∀ row ∈ s.store.tombstones, picked.contains row.seq = true →
      ∀ q ∈ s.node.searches, ∀ r ∈ q.stage.todo, HidesNothing row r
  | _ => True

instance (s : State) (a : Action) : Decidable (NoneNeeded s a) := by
  induction a using Action.casesOn with
  | writer b => induction b using Writer.casesOn <;> dsimp only [NoneNeeded] <;> infer_instance
  | leader b => induction b using LeaderAction.casesOn <;> dsimp only [NoneNeeded] <;> infer_instance
  | _ => dsimp only [NoneNeeded]; infer_instance

variable {s s' : State} {stream : ℤ} {docs : List Doc} {set : ExclusionSet} {r : SplitRow} {d : Doc}
  {list : List Row} {a : Action} {grace : ℕ}

theorem Complete.later {s s' : Store} (h : Complete s stream docs set)
    (hlt : set.appliedThrough < s.nextSeq) (hlater : s.Later s') : Complete s' stream docs set := by
  intro row hrow hstream hle d hd hbelow
  have hold := hlater.mem_of_seq_lt hrow (hle.trans_lt hlt)
  refine (h row hold hstream hle d hd hbelow).imp_right ?_
  rintro ⟨row', hrow', hhides⟩
  exact ⟨row', hlater.removed hrow', hhides⟩

theorem ReaderComplete.later {s s' : Store} {splitId : String} (h : ReaderComplete s stream splitId set)
    (hset : ReaderOk s stream set) (hlater : s.Later s') : ReaderComplete s' stream splitId set := by
  obtain ⟨r, hr, hid, hcomplete⟩ := h
  obtain ⟨r', hr', hid', -, hdocs, -⟩ := hlater.splits r hr
  exact ⟨r', hr', hid'.trans hid, hdocs ▸ hcomplete.later hset.lt hlater⟩

/-- **The invariant**: besides everything else, what searches still have to go through is settled and
the open readers are complete. -/
structure Covering (stream : ℤ) (s : State) : Prop extends Whole stream s, AllSettled s where
  held : ∀ q ∈ s.node.searches, ∀ r ∈ q.stage.todo, Settled s.store r
  complete : ∀ splitId set, s.node.readers splitId = some set →
    ReaderComplete s.store stream splitId set

theorem Covering.init (stream : ℤ) : Covering stream State.init where
  toWhole := .init stream
  live := AllSettled.init.live
  sources := AllSettled.init.sources
  held := fun _ hq => by cases hq
  complete := fun _ _ hset => by cases hset

/-! ## Going through a split -/

theorem Settled.not_excused {s : Store} (h : Settled s r) (hstream : r.streamId = stream)
    (hd : d ∈ r.docs) : ¬ s.Excused stream d := by
  rintro ⟨row, hrow, hrstream, hbelow⟩
  have hfalse := (h.clean row hrow).below (hrstream.trans hstream.symm) hd
  rw [hbelow] at hfalse
  cases hfalse

theorem Covering.reader (h : Covering stream s) (hheld : HeldOk s.store stream r)
    (hsettled : Settled s.store r) : Complete s.store stream r.docs (s.node.reader r) := by
  unfold Node.reader
  cases hset : s.node.readers r.splitId with
  | some set =>
    obtain ⟨r', hr', hid, hcomplete⟩ := h.complete _ set hset
    obtain ⟨-, hdocs⟩ := hheld.held.docs_eq hr' hid
    exact hdocs ▸ hcomplete
  | none =>
    intro row hrow hstream hle d hd hbelow
    rw [Option.getD_none, openReader_appliedThrough hheld.nonneg] at hle
    have hfalse := (hsettled.applied row hrow hle).below (hstream.trans hheld.stream_eq.symm) hd
    rw [hbelow] at hfalse
    cases hfalse

theorem Complete.excluded {s : Store} (h : Complete s stream docs set) (hlist : ListDone s stream list)
    {row : Row} (hrow : row ∈ list) (hd : d ∈ docs) (hbelow : below row.toTombstone d = true) :
    d ∈ (applyTombstones docs set (list.map Row.toTombstone)).excluded ∨ s.Excused stream d := by
  rw [mem_applyRows hlist.sorted]
  rcases le_or_gt row.seq set.appliedThrough with hle | hlt
  · obtain ⟨hcommitted, hstream⟩ := hlist.mem row hrow
    exact (h row hcommitted hstream hle d hd hbelow).imp_left .inl
  · grind

theorem Complete.applyTombstones {s : Store} (h : Complete s stream docs set)
    (hlist : ListDone s stream list) :
    Complete s stream docs (applyTombstones docs set (list.map Row.toTombstone)) := by
  intro row hrow hstream hle d hd hbelow
  obtain heq | heq := appliedThrough_applyTombstones docs set (list.map Row.toTombstone)
  · rw [heq] at hle
    refine (h row hrow hstream hle d hd hbelow).imp_left fun hmem => ?_
    exact (mem_applyRows hlist.sorted).mpr (.inl hmem)
  · rw [heq, last_toTombstone] at hle
    rcases hlist.complete row hrow hstream hle with hcov | hcov
    · obtain ⟨row', hrow', -, hbelow'⟩ := hcov.below hbelow
      exact h.excluded hlist hrow' hd hbelow'
    · obtain ⟨row', hrow', hstream', hbelow'⟩ := hcov.below hbelow
      exact .inr ⟨row', hrow', hstream'.trans hstream, hbelow'⟩

theorem Covering.readerAfter (h : Covering stream s) (hheld : HeldOk s.store stream r)
    (hsettled : Settled s.store r) (hlist : ListDone s.store stream list) :
    ReaderComplete s.store stream r.splitId (s.node.readerAfter list r) := by
  obtain ⟨r', hr', hid, -, hdocs, -⟩ := hheld.held
  refine ⟨r', hr', hid, hdocs ▸ ?_⟩
  have hreader := h.reader hheld hsettled
  unfold Node.readerAfter
  split
  · exact hreader.applyTombstones hlist
  · exact hreader

theorem mem_of_mem_shownDocs {n : Node} (hd : d ∈ n.shownDocs list r) : d ∈ r.docs := by
  grind [Node.shownDocs]

theorem Covering.shownDocs_not_below (h : Covering stream s) (hheld : HeldOk s.store stream r)
    (hsettled : Settled s.store r) (hlist : ListDone s.store stream list) {streamId : ℤ}
    {docId : String} {beforeSeq : ℤ} (hcov : Covered list streamId docId beforeSeq)
    (hd : d ∈ s.node.shownDocs list r) : ¬ (d.id = some docId ∧ d.seq < beforeSeq) := by
  rintro ⟨hid, hlt⟩
  obtain ⟨row, hrow, -, hdoc, hle⟩ := hcov
  have hbelow : below row.toTombstone d = true := below_iff.mpr ⟨hdoc ▸ hid, hlt.trans_le hle⟩
  have hmem := mem_of_mem_shownDocs hd
  -- the list is not empty and the split has ids, so the list is applied
  have happlies : applies list r = true := by
    cases hmin : seqMin r.docs with
    | none =>
      grind [id_eq_none_of_seqMin]
    | some min =>
      rw [applies, hmin, Option.isSome_some, Bool.and_true, Bool.not_eq_true', isEmpty_eq_false_iff]
      exact ne_nil_of_mem hrow
  rw [Node.shownDocs, if_pos happlies, mem_filter, decide_eq_true_iff, Node.readerAfter,
    if_pos happlies] at hd
  rcases (h.reader hheld hsettled).excluded hlist hrow hmem hbelow with hexcl | hexcused
  · exact hd.2 hexcl
  · exact hsettled.not_excused hheld.stream_eq hmem hexcused

/-! ## Every step -/

theorem Moves.todo {s : Store} {n : Node} {j : ℕ} {q : Search} {a : NodeAction} {stage : Stage}
    {cache : Option Cache} {readers : String → Option ExclusionSet}
    (h : Moves stream s n j q a stage cache readers) (hr : r ∈ stage.todo) :
    r ∈ q.stage.todo ∨ r ∈ s.published stream := by
  cases h with
  | readSplits hstage => exact .inr hr
  | hit hstage hfresh => rcases hstage with hstage | hstage <;> rw [hstage] <;> exact .inl hr
  | miss hstage | refresh hstage | page hstage | lastPage hstage | store hstage =>
    rw [hstage]
    exact .inl hr
  | searchSplit hstage hmem =>
    rw [hstage]
    exact .inl (mem_of_mem_erase hr)
  | finish hstage | cancel => cases hr

theorem live_of_published {s : Store} (hr : r ∈ s.published stream) :
    r ∈ s.splits.rows ∧ live r = true := by
  obtain ⟨hmem, hp⟩ := mem_filter.mp hr
  grind [live]

theorem Covering.nodeStep (h : Covering stream s) {a : NodeAction} {node : Node}
    (hnode : NodeStep stream s.store s.node a node) :
    (∀ q ∈ node.searches, ∀ r ∈ q.stage.todo, Settled s.store r) ∧
      ∀ splitId set, node.readers splitId = some set →
        ReaderComplete s.store stream splitId set := by
  cases hnode with
  | start =>
    refine ⟨fun q hq => ?_, h.complete⟩
    rcases mem_append.mp hq with hold | hnew
    · exact h.held q hold
    · rw [mem_singleton.mp hnew]
      exact fun r hr => absurd hr not_mem_nil
  | @move a j q stage cache readers hq hm =>
    have hmem := mem_of_getElem? hq
    have hqok := h.node.searches q hmem
    constructor
    · intro q' hq' r hr
      rcases mem_or_eq_of_mem_set hq' with hold | rfl
      · exact h.held q' hold r hr
      · rcases hm.todo hr with hold | hpub
        · exact h.held q hmem r hold
        · obtain ⟨hrow, hlive⟩ := live_of_published hpub
          exact h.live r hrow hlive
    · cases hm with
      | searchSplit hstage hsplit =>
        intro splitId set hset
        rcases reader_of_update hset with ⟨rfl, hnew⟩ | hold
        · have hlist := hqok.list
          have htodo := h.held q hmem
          have hsub := hqok.todo
          rw [hstage] at hlist htodo hsub
          cases hnew
          exact h.readerAfter (hqok.splits _ (hstage ▸ hsub hsplit)) (htodo _ hsplit) hlist
        · exact h.complete splitId set hold
      | _ => exact h.complete
  | evict splitId =>
    refine ⟨h.held, fun id set hset => ?_⟩
    rcases reader_of_update hset with ⟨-, hnew⟩ | hold
    · cases hnew
    · exact h.complete id set hold
  | clear | answer hk => exact ⟨h.held, h.complete⟩

theorem Covering.later (h : Covering stream s) {store : Store} (hlater : s.store.Later store)
    (hremoved : ∀ row ∈ store.removed, row ∈ s.store.removed ∨
      ∀ q ∈ s.node.searches, ∀ r ∈ q.stage.todo, HidesNothing row r) :
    (∀ q ∈ s.node.searches, ∀ r ∈ q.stage.todo, Settled store r) ∧
      ∀ splitId set, s.node.readers splitId = some set →
        ReaderComplete store stream splitId set := by
  constructor
  · intro q hq r hr
    refine (h.held q hq r hr).later hlater fun row hrow => ?_
    grind
  · intro splitId set hset
    exact (h.complete splitId set hset).later (h.node.readers splitId set hset) hlater

theorem Covering.step (h : Covering stream s) (hback : NothingBroughtBack s a)
    (hneeded : NoneNeeded s a) (hstep : step grace stream s a = some s') : Covering stream s' := by
  have hwhole := h.toWhole.step hstep
  have hsettled := h.toAllSettled.step hback hstep
  obtain ⟨b, store, rfl, hw, rfl⟩ | ⟨b, store, leader, rfl, hl, rfl⟩ | ⟨b, node, rfl, hnode, rfl⟩ |
    ⟨items, gap, rfl, rfl⟩ := step_cases hstep
  · obtain ⟨hheld, hcomplete⟩ := h.later (hw.ok h.store).2 fun row hrow => by
      refine (hw.removed h.store hrow).imp_right ?_
      rintro ⟨streamId, rfl, htable, hstream⟩
      exact hneeded row htable hstream
    exact ⟨hwhole, hsettled.live, hsettled.sources, hheld, hcomplete⟩
  · obtain ⟨hheld, hcomplete⟩ := h.later (hl.ok h.store h.leader).2 fun row hrow => by
      refine (hl.removed hrow).imp_right ?_
      rintro ⟨picked, rfl, htable, hpicked, -⟩
      exact hneeded row htable hpicked
    exact ⟨hwhole, hsettled.live, hsettled.sources, hheld, hcomplete⟩
  · obtain ⟨hheld, hcomplete⟩ := h.nodeStep (nodeStep_cases hnode)
    exact ⟨hwhole, hsettled.live, hsettled.sources, hheld, hcomplete⟩
  · obtain ⟨hheld, hcomplete⟩ := h.later (h.store.later_upsertTombstones items gap) fun row hrow =>
      .inl ((h.store.upsertTombstones_frame items gap).2.1 ▸ hrow)
    exact ⟨hwhole, hsettled.live, hsettled.sources, hheld, hcomplete⟩

/-! ## Writes and searches only -/

/-- The interleavings of document writes and searches: nothing is rewritten, dropped or purged. -/
def Action.Ordinary : Action → Prop
  | .writer (.tick _) | .writer (.upsert _ _) | .writer (.stage _ _ _) | .writer (.publish _) => True
  | .writer (.markForDelete _) | .writer (.retire _) | .leader _ => False
  | .node _ | .write _ _ => True

instance (a : Action) : Decidable a.Ordinary := by
  induction a using Action.casesOn with
  | writer b => induction b using Writer.casesOn <;> dsimp only [Action.Ordinary] <;> infer_instance
  | _ => dsimp only [Action.Ordinary]; infer_instance

theorem Action.Ordinary.removed (ha : a.Ordinary) (hs : s.store.Ok)
    (hstep : Visibility.step grace stream s a = some s') : s'.store.removed = s.store.removed := by
  obtain ⟨b, store, rfl, hw, rfl⟩ | ⟨b, store, leader, rfl, hl, rfl⟩ | ⟨b, node, rfl, hnode, rfl⟩ |
    ⟨items, gap, rfl, rfl⟩ := step_cases hstep
  · cases hw with
    | tick | stage | publish => rfl
    | upsert items gap => exact (hs.upsertTombstones_frame items gap).2.1
    | markForDelete | retire => cases ha
  · cases ha
  · rfl
  · exact (hs.upsertTombstones_frame items gap).2.1

theorem Action.Ordinary.conditions (ha : a.Ordinary) (hnone : s.store.removed = []) :
    NothingBroughtBack s a ∧ NoneNeeded s a := by
  cases a with
  | writer b =>
    cases b with
    | tick | upsert | publish => exact ⟨trivial, trivial⟩
    | stage splitId streamId docs =>
      refine ⟨fun row hrow => ?_, trivial⟩
      rw [hnone] at hrow
      cases hrow
    | markForDelete | retire => cases ha
  | leader b => cases ha
  | node b | write items gap => exact ⟨trivial, trivial⟩

theorem Covering.step_ordinary (h : Covering stream s ∧ s.store.removed = []) (ha : a.Ordinary)
    (hstep : Visibility.step grace stream s a = some s') :
    Covering stream s' ∧ s'.store.removed = [] := by
  obtain ⟨hback, hneeded⟩ := ha.conditions h.2
  exact ⟨h.1.step hback hneeded hstep, (ha.removed h.1.store hstep).trans h.2⟩

end RSearch.Visibility
