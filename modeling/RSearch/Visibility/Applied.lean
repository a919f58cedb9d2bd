import RSearch.Visibility.Rewrite

/-!
# Is an applied tombstone really applied?

`tombstone_seq_applied` of a split promises that no tombstone up to that sequence hides anything in it.
`Base` gives it for the rows still in the table.  For *every tombstone ever committed* it needs more: a
purged row is on no list of a rewrite.
-/

namespace RSearch.Visibility

open Control Store

def Store.Applied (s : Store) (r : SplitRow) : Prop :=
  ∀ row ∈ s.committed, row.seq ≤ r.tombstoneSeqApplied → HidesNothing row r

def Store.Clean (s : Store) (r : SplitRow) : Prop :=
  ∀ row ∈ s.removed, HidesNothing row r

def Store.AllApplied (s : Store) : Prop :=
  ∀ r ∈ s.splits.rows, live r = true → s.Applied r

def Leader.stream? : Leader → Option ℤ
  | .idle => none
  | .listing streamId .. | .listed streamId .. | .staged streamId .. => some streamId

def Leader.sources : Leader → List SplitRow
  | .idle => []
  | .listing _ sources _ | .listed _ sources _ | .staged _ sources _ _ _ => sources

variable {s store : Store} {r : SplitRow} {grace : ℕ} {streamId stream : ℤ}

theorem Leader.Ok.stream_of_source {l : Leader} (h : l.Ok s) (hr : r ∈ l.sources) :
    l.stream? = some r.streamId := by
  cases l with
  | idle => cases hr
  | listing streamId sources list | listed streamId sources list =>
    exact congrArg some (h.2 r hr).2.1.symm
  | staged streamId sources list group newId => exact congrArg some (h.1.2 r hr).2.1.symm

/-- A staged split brings back no version hidden by a deleted tombstone, and an index is deleted
only while the leader is not rewriting splits of it. -/
def NothingBroughtBack (s : State) : Action → Prop
  | .writer (.stage _ streamId docs) =>
    ∀ row ∈ s.store.removed, ∀ d ∈ docs, row.hides streamId d = false
  | .writer (.retire streamId) => s.leader.stream? ≠ some streamId
  | _ => True

instance (s : State) (a : Action) : Decidable (NothingBroughtBack s a) := by
  unfold NothingBroughtBack
  split <;> infer_instance

/-! ## What is known of one split -/

structure Settled (s : Store) (r : SplitRow) : Prop where
  bounded : r.tombstoneSeqApplied < s.nextSeq
  applied : s.Applied r
  clean : s.Clean r

open Settled

namespace Settled

variable {s s' : Store} {r r' : SplitRow}

theorem later (h : Settled s r) (hlater : s.Later s')
    (hremoved : ∀ row ∈ s'.removed, row ∈ s.removed ∨ HidesNothing row r) : Settled s' r where
  bounded := h.bounded.trans_le hlater.nextSeq
  applied := fun row hrow hle =>
    h.applied row (hlater.mem_of_seq_lt hrow (hle.trans_lt h.bounded)) hle
  clean := fun row hrow => (hremoved row hrow).elim (h.clean row) id

theorem congr (h : Settled s r) (hstream : r'.streamId = r.streamId) (hdocs : r'.docs = r.docs)
    (happ : r'.tombstoneSeqApplied = r.tombstoneSeqApplied) : Settled s r' where
  bounded := happ ▸ h.bounded
  applied := fun row hrow hle => (h.applied row hrow (happ ▸ hle)).congr hstream hdocs
  clean := fun row hrow => (h.clean row hrow).congr hstream hdocs

theorem keptDocs {streamId : ℤ} {list : List Row} (h : Settled s r) (hlist : ListDone s streamId list)
    (hstr : r.streamId = streamId) (happ : 0 ≤ r.tombstoneSeqApplied) {row : Row}
    (hrow : row ∈ s.committed) (hstream : row.streamId = streamId)
    (hle : row.seq ≤ Feed.last seqOf list) :
    ∀ d ∈ keptDocs list r, below row.toTombstone d = false := by
  intro d hd
  rw [Bool.eq_false_iff]
  intro hbelow
  rcases hlist.complete row hrow hstream hle with hcov | hcov
  · obtain ⟨row', hrow', hstream', hbelow'⟩ := hcov.below hbelow
    have hkept := keptDocs_below hlist.sorted hrow' happ
      ((hstream'.trans hstream).trans hstr.symm) (h.applied row' (hlist.mem row' hrow').1)
    grind
  · obtain ⟨row', hrow', hstream', hbelow'⟩ := hcov.below hbelow
    have hclean := (h.clean row' hrow').below ((hstream'.trans hstream).trans hstr.symm)
      (List.mem_of_mem_filter hd)
    exact Bool.eq_false_iff.mp hclean hbelow'

end Settled

theorem hidesNothing_of_ne {row : Row} (h : row.streamId ≠ r.streamId) : HidesNothing row r :=
  hidesNothing_of_below fun hstream => absurd hstream h

theorem Store.TableApplied.purgeable (h : s.TableApplied) {row : Row} (hrow : row ∈ s.tombstones)
    (hp : s.purgeable grace row = true) (hr : r ∈ s.splits.rows) (hlive : live r = true) :
    HidesNothing row r := by
  refine hidesNothing_of_below fun hstream => ?_
  obtain ⟨-, hall⟩ := purgeable_iff.mp hp
  cases hmin : seqMin r.docs with
  | some min =>
    have hle := hall r hr hstream.symm hlive (hmin ▸ rfl)
    exact fun d hd => (h r hr row hrow hle).below hstream hd
  | none =>
    -- a split of the legacy layout: no ids
    intro d hd
    rw [Bool.eq_false_iff]
    intro hbelow
    have hid := (below_iff.mp hbelow).1
    rw [id_eq_none_of_seqMin hmin hd] at hid
    cases hid

/-! ## The invariant -/

structure AllSettled (s : State) : Prop extends Base s where
  live : ∀ r ∈ s.store.splits.rows, live r = true → Settled s.store r
  sources : ∀ r ∈ s.leader.sources, Settled s.store r

theorem AllSettled.init : AllSettled State.init where
  toBase := .init
  live := fun _ hr => by cases hr
  sources := fun _ hr => by cases hr

theorem Settled.of_moved {s' : Store} (hlater : s.Later s') (hmoved : Moved s.splits s'.splits)
    (hremoved : s'.removed = s.removed)
    (h : ∀ r ∈ s.splits.rows, Visibility.live r = true → Settled s r) :
    ∀ r ∈ s'.splits.rows, Visibility.live r = true → Settled s' r := by
  intro r' hr' hlive
  obtain ⟨r, hr, -, hstream, hdocs, happ, hwas⟩ := hmoved.source r' hr'
  refine ((h r hr (hwas hlive)).later hlater fun row hrow => ?_).congr hstream hdocs happ
  exact .inl (hremoved ▸ hrow)

theorem retireStream_live (hr : r ∈ (s.retireStream streamId).splits.rows) (hlive : live r = true) :
    r ∈ s.splits.rows ∧ r.streamId ≠ streamId := by
  obtain ⟨r₀, hr₀, rfl⟩ := Splits.mem_setState.mp hr
  split at hlive
  · cases hlive
  · grind

theorem retireStream_removed (hne : r.streamId ≠ streamId) :
    ∀ row ∈ (s.retireStream streamId).removed, row ∈ s.removed ∨ HidesNothing row r := by
  intro row hrow
  refine (mem_removed_removeRows.mp hrow).imp_right fun hgone => ?_
  grind [hidesNothing_of_ne]

theorem AllSettled.writer {s : State} (h : AllSettled s) {b : Writer} (hb : WriterStep s.store b store)
    (hcond : NothingBroughtBack s (.writer b)) :
    (∀ r ∈ store.splits.rows, Visibility.live r = true → Settled store r) ∧
      ∀ r ∈ s.leader.sources, Settled store r := by
  obtain ⟨hs', hlater⟩ := hb.ok h.store
  cases hb with
  | tick millis =>
    exact ⟨of_moved hlater (.of_eq rfl) rfl h.live, fun r hr => (h.sources r hr).later hlater fun _ => .inl⟩
  | upsert items gap =>
    obtain ⟨hsplits, hremoved, -⟩ := h.store.upsertTombstones_frame items gap
    exact ⟨of_moved hlater (.of_eq hsplits) hremoved h.live,
      fun r hr => (h.sources r hr).later hlater fun row hrow => .inl (hremoved ▸ hrow)⟩
  | stage hne hnew hrows =>
    refine ⟨fun r hr hlive => ?_, fun r hr => (h.sources r hr).later hlater fun _ => .inl⟩
    rw [withSplits, hrows] at hr
    rcases List.mem_cons.mp hr with rfl | hr
    · refine ⟨h.store.pos, fun row hrow hle => ?_, hcond⟩
      exact absurd hle (h.store.seq_mem row hrow).1.not_ge
    · exact (h.live r hr hlive).later hlater fun _ => .inl
  | publish splitId =>
    exact ⟨of_moved hlater (.publish _ _) rfl h.live, fun r hr => (h.sources r hr).later hlater fun _ => .inl⟩
  | markForDelete splitIds =>
    exact ⟨of_moved hlater (.markSplitsForDelete _ _) rfl h.live,
      fun r hr => (h.sources r hr).later hlater fun _ => .inl⟩
  | retire streamId =>
    constructor
    · intro r hr hlive
      obtain ⟨hr₀, hne⟩ := retireStream_live hr hlive
      exact (h.live r hr₀ hlive).later hlater (retireStream_removed hne)
    · intro r hr
      refine (h.sources r hr).later hlater (retireStream_removed fun hstream => hcond ?_)
      exact hstream ▸ h.leader.stream_of_source hr

theorem AllSettled.leaderStep {s : State} (h : AllSettled s) {b : LeaderAction} {leader : Leader}
    (hb : LeaderStep grace s.store s.leader b store leader) :
    (∀ r ∈ store.splits.rows, Visibility.live r = true → Settled store r) ∧
      ∀ r ∈ leader.sources, Settled store r := by
  obtain ⟨hs', hlater⟩ := hb.ok h.store h.leader
  have hok := h.leader
  have hsrc := h.sources
  generalize s.leader = l at hb hok hsrc
  cases hb with
  | select hsel =>
    refine ⟨h.live, fun r hr => ?_⟩
    obtain ⟨hmem, hpub, -⟩ := hsel.2 r hr
    exact h.live r hmem (by rw [Visibility.live, hpub]; rfl)
  | page | lastPage | logMode | conflict => exact ⟨h.live, hsrc⟩
  | drop hsub hnil =>
    exact ⟨of_moved hlater (.markSplitsForDelete _ _) rfl h.live,
      fun r hr => (hsrc r hr).later hlater fun _ => .inl⟩
  | stage hsub hfresh hnew hrows =>
    obtain ⟨hlist, hsources⟩ := hok
    refine ⟨fun r hr hlive => ?_, fun r hr => (hsrc r hr).later hlater fun _ => .inl⟩
    rw [withSplits, hrows] at hr
    rcases List.mem_cons.mp hr with rfl | hr
    · -- the new split: its list is complete and its sources are settled
      refine ⟨hlist.last_lt h.store, fun row hrow hle => ?_, fun row hrow => ?_⟩
      · refine hidesNothing_of_below fun hstream => ?_
        refine rebuildDocs_below hfresh hrow fun source hsource => ?_
        obtain ⟨-, hstr, happ⟩ := hsources source (hsub hsource)
        exact (hsrc source (hsub hsource)).keptDocs hlist hstr happ hrow hstream hle
      · refine hidesNothing_of_below fun hstream => ?_
        refine rebuildDocs_below hfresh (h.store.removed_sub hrow) fun source hsource d hd => ?_
        obtain ⟨-, hstr, -⟩ := hsources source (hsub hsource)
        exact ((hsrc source (hsub hsource)).clean row hrow).below (hstream.trans hstr.symm)
          (List.mem_of_mem_filter hd)
    · exact (h.live r hr hlive).later hlater fun _ => .inl
  | swap hswap =>
    exact ⟨of_moved hlater (.swapSplits hswap) rfl h.live, fun r hr => (hsrc r hr).later hlater fun _ => .inl⟩
  | markApplied hmem hnone =>
    obtain ⟨hlist, hsources⟩ := hok
    refine ⟨fun r' hr' hlive => ?_, fun r hr => (hsrc r hr).later hlater fun _ => .inl⟩
    obtain ⟨r, hr, rfl⟩ := mem_markTombstonesApplied.mp hr'
    split at hlive
    · next hid =>
        have hsettled := h.live r hr hlive
        obtain ⟨hheld, hstr, happ⟩ := hsources _ hmem
        obtain ⟨hstr', hdocs⟩ := hheld.docs_eq hr hid
        rw [if_pos hid]
        refine ⟨max_lt hsettled.bounded (hlist.last_lt h.store), fun row hrow hle => ?_, hsettled.clean⟩
        rcases le_max_iff.mp hle with hold | hnew
        · exact hsettled.applied row hrow hold
        · refine hidesNothing_of_below fun hstream d hd => ?_
          refine (hsrc _ hmem).keptDocs hlist hstr happ hrow ((hstream.trans hstr').trans hstr) hnew d ?_
          grind [keptDocs_eq_docs]
    · next hid =>
        rw [if_neg hid]
        exact (h.live r hr hlive).later hlater fun _ => .inl
  | finish => exact ⟨h.live, fun r hr => by cases hr⟩
  | purge =>
    refine ⟨fun r hr hlive => ?_, fun r hr => by cases hr⟩
    refine (h.live r hr hlive).later hlater fun row hrow => ?_
    refine (mem_removed_removeRows.mp hrow).imp_right fun hgone => ?_
    obtain ⟨htable, hp⟩ := hgone
    exact h.applied.purgeable htable (Bool.and_eq_true_iff.mp hp).2 hr hlive

theorem AllSettled.step {s s' : State} {a : Action} (h : AllSettled s) (hcond : NothingBroughtBack s a)
    (hstep : step grace stream s a = some s') : AllSettled s' := by
  obtain ⟨hbase, hlater⟩ := h.toBase.step hstep
  obtain ⟨b, store, rfl, hw, rfl⟩ | ⟨b, store, leader, rfl, hl, rfl⟩ | ⟨b, node, rfl, -, rfl⟩ |
    ⟨items, gap, rfl, rfl⟩ := step_cases hstep
  · obtain ⟨hlive, hsources⟩ := h.writer hw hcond
    exact ⟨hbase, hlive, hsources⟩
  · obtain ⟨hlive, hsources⟩ := h.leaderStep hl
    exact ⟨hbase, hlive, hsources⟩
  · exact ⟨hbase, h.live, h.sources⟩
  · obtain ⟨hlive, hsources⟩ := h.writer (.upsert items gap) trivial
    exact ⟨hbase, hlive, hsources⟩

theorem AllSettled.of_run {as : List Action} {s : State}
    (halong : Runs.Along (Visibility.step grace stream) NothingBroughtBack .init as)
    (hrun : Runs.run (Visibility.step grace stream) .init as = some s) : AllSettled s :=
  Runs.run_invariant _ (fun _ _ _ h hcond hstep => h.step hcond hstep) .init halong hrun

/-- **An applied tombstone is applied.**  Along every run in which nothing hidden by a deleted
tombstone is brought back, every staged or published split is free of what the tombstones up to its
`tombstone_seq_applied` hide, in every state reached. -/
theorem applied_hides_nothing {grace : ℕ} {stream : ℤ} {as : List Action} {s : State}
    (halong : Runs.Along (step grace stream) NothingBroughtBack .init as)
    (hrun : Runs.run (step grace stream) .init as = some s) : s.store.AllApplied :=
  fun r hr hlive => ((AllSettled.of_run halong hrun).live r hr hlive).applied

/-! ## Runs -/

instance (row : Row) (r : SplitRow) : Decidable (HidesNothing row r) :=
  inferInstanceAs (Decidable (∀ d ∈ r.docs, _))

instance (s : Store) (r : SplitRow) : Decidable (s.Applied r) :=
  inferInstanceAs (Decidable (∀ row ∈ s.committed, _))

instance (s : Store) : Decidable s.AllApplied :=
  inferInstanceAs (Decidable (∀ r ∈ s.splits.rows, _))

def firstA : Doc := ⟨0, some "a", 5⟩

/-- A split of stream 1 as its row reads while it is published and has applied nothing. -/
def publishedRow (splitId : String) (docs : List Doc) : SplitRow := ⟨splitId, 1, .published, 0, docs⟩

def tombstone (docId : String) (beforeSeq : ℤ) : Action :=
  .writer (.upsert [⟨1, docId, beforeSeq⟩] 0)

def ingest (splitId : String) (docs : List Doc) : List Action :=
  [.writer (.stage splitId 1 docs), .writer (.publish splitId)]

def listFor (source : SplitRow) : List Action := [.leader (.select 1 [source]), .leader .page]

/-- The delete of `a` is purged before the split with the old version of `a` is staged; a later
tombstone of another document then has that split marked as up to date. -/
def lateSplit : List Action :=
  tombstone "a" 10 :: .writer (.tick 4000000) :: .leader (.purge [1]) :: ingest "S" [firstA] ++
    tombstone "b" 20 :: listFor (publishedRow "S" [firstA]) ++
      [.leader (.markApplied (publishedRow "S" [firstA]))]

/-- **A late split is marked as if the purged tombstone had been applied to it.** -/
theorem late_split_marked_applied :
    ¬ ∀ (as : List Action) (s : State), Runs.run (step 3600000 1) .init as = some s →
      s.store.AllApplied := by
  intro h
  obtain ⟨s, hrun, hnot⟩ :
      ∃ s, Runs.run (step 3600000 1) .init lateSplit = some s ∧ ¬s.store.AllApplied := by
    decide +kernel
  exact hnot (h _ s hrun)

/-- The same documents and tombstones, with the split staged in time: it is rewritten without the
old version of `a`, and the tombstone is purged after that. -/
def stagedInTime : List Action :=
  ingest "S" [firstA, ⟨1, some "c", 6⟩] ++ tombstone "a" 10 ::
    listFor (publishedRow "S" [firstA, ⟨1, some "c", 6⟩]) ++
      [.leader (.rebuild [publishedRow "S" [firstA, ⟨1, some "c", 6⟩]] (fun _ => "") "T"),
        .leader .swap, .leader .finish, .writer (.tick 4000000), .leader (.purge [1])]

theorem applied_hides_nothing_stagedInTime :
    ∃ s, Runs.run (step 3600000 1) .init stagedInTime = some s ∧ s.store.removed ≠ [] ∧
      s.store.AllApplied := by
  obtain ⟨s, hrun, hpurged⟩ :
      ∃ s, Runs.run (step 3600000 1) .init stagedInTime = some s ∧ s.store.removed ≠ [] := by
    decide +kernel
  exact ⟨s, hrun, hpurged, applied_hides_nothing (by decide +kernel) hrun⟩

end RSearch.Visibility
