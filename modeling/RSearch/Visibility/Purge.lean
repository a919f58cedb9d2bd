import RSearch.Visibility.Applied

/-!
# Purging tombstones

`purge_tombstones` deletes a tombstone once it is older than the grace period and every staged or
published split of its stream has applied it.  The first condition is for documents accepted before it
and still on their way to a split; the second for the splits that are there.
-/

namespace RSearch.Visibility

open Control Store

/-- **The assumption behind the grace period**: a document accepted before a tombstone that hides it
is staged within the grace period, if at all.  `acceptedAt` says when the document with a key was
accepted. -/
def StagedInTime (grace : ℕ) (acceptedAt : ℕ → ℕ) (s : State) : Action → Prop
  | .writer (.stage _ streamId docs) => ∀ row ∈ s.store.committed, ∀ d ∈ docs,
      row.hides streamId d = true → acceptedAt d.key ≤ row.createdAt →
        s.store.clock ≤ row.createdAt + grace
  | _ => True

instance (grace : ℕ) (acceptedAt : ℕ → ℕ) (s : State) (a : Action) :
    Decidable (StagedInTime grace acceptedAt s a) := by
  induction a using Action.casesOn with
  | writer b => induction b using Writer.casesOn <;> dsimp only [StagedInTime] <;> infer_instance
  | _ => dsimp only [StagedInTime]; infer_instance

def Deleted (s s' : State) (row : Row) : Prop :=
  row ∈ s.store.tombstones ∧ row ∉ s'.store.tombstones

def HidesLaterOnly (acceptedAt : ℕ → ℕ) (row : Row) (r : SplitRow) : Prop :=
  ∀ d ∈ r.docs, row.hides r.streamId d = true → row.createdAt < acceptedAt d.key

variable {acceptedAt : ℕ → ℕ}

theorem HidesNothing.later {row : Row} {r : SplitRow} (h : HidesNothing row r) :
    HidesLaterOnly acceptedAt row r := by
  intro d hd hhides
  rw [h d hd] at hhides
  cases hhides

theorem HidesLaterOnly.congr {row : Row} {r r' : SplitRow} (h : HidesLaterOnly acceptedAt row r)
    (hstream : r'.streamId = r.streamId) (hdocs : r'.docs = r.docs) :
    HidesLaterOnly acceptedAt row r' := by
  intro d hd hhides
  rw [hstream] at hhides
  exact h d (hdocs ▸ hd) hhides

structure StaysPurged (grace : ℕ) (acceptedAt : ℕ → ℕ) (row : Row) (s : State) : Prop extends
    Base s where
  committed : row ∈ s.store.committed
  past : row.createdAt + grace < s.store.clock
  live : ∀ r ∈ s.store.splits.rows, live r = true → HidesLaterOnly acceptedAt row r
  sources : ∀ r ∈ s.leader.sources, HidesLaterOnly acceptedAt row r

namespace StaysPurged

variable {grace : ℕ} {acceptedAt : ℕ → ℕ} {row : Row} {s : State}

theorem of_moved (h : StaysPurged grace acceptedAt row s) {splits : Splits}
    (hmoved : Moved s.store.splits splits) :
    ∀ r ∈ splits.rows, Visibility.live r = true → HidesLaterOnly acceptedAt row r := by
  intro r' hr' hlive
  obtain ⟨r, hr, -, hstream, hdocs, -, hwas⟩ := hmoved.source r' hr'
  exact (h.live r hr (hwas hlive)).congr hstream hdocs

variable {store : Store}

theorem writer (h : StaysPurged grace acceptedAt row s) {b : Writer} (hb : WriterStep s.store b store)
    (hcond : StagedInTime grace acceptedAt s (.writer b)) :
    ∀ r ∈ store.splits.rows, Visibility.live r = true → HidesLaterOnly acceptedAt row r := by
  rcases hb.moved h.store with hmoved | ⟨splitId, streamId, docs, rfl, hrows⟩
  · exact h.of_moved hmoved
  · intro r hr hlive
    rw [hrows] at hr
    rcases List.mem_cons.mp hr with rfl | hr
    · -- the grace period is over, so the document was accepted later
      intro d hd hhides
      by_contra hle
      exact absurd (hcond row h.committed d hd hhides (not_lt.mp hle)) h.past.not_ge
    · exact h.live r hr hlive

theorem leaderStep (h : StaysPurged grace acceptedAt row s) {b : LeaderAction} {leader : Leader}
    (hb : LeaderStep grace s.store s.leader b store leader) :
    (∀ r ∈ store.splits.rows, Visibility.live r = true → HidesLaterOnly acceptedAt row r) ∧
      ∀ r ∈ leader.sources, HidesLaterOnly acceptedAt row r := by
  have hok := h.leader
  have hsrc := h.sources
  generalize s.leader = l at hb hok hsrc
  cases hb with
  | select hsel =>
    refine ⟨h.live, fun r hr => ?_⟩
    obtain ⟨hmem, hpub, -⟩ := hsel.2 r hr
    exact h.live r hmem (by rw [Visibility.live, hpub]; rfl)
  | page | lastPage | logMode | conflict => exact ⟨h.live, hsrc⟩
  | drop hsub hnil => exact ⟨h.of_moved (.markSplitsForDelete _ _), hsrc⟩
  | stage hsub hfresh hnew hrows =>
    refine ⟨fun r hr hlive => ?_, hsrc⟩
    rw [withSplits, hrows] at hr
    rcases List.mem_cons.mp hr with rfl | hr
    · -- a copied document comes from a source; a generated id is no tombstone's
      intro d hd hhides
      obtain ⟨hstream, hbelow⟩ := hides_iff.mp hhides
      rcases mem_rebuildDocs hd with ⟨source, hsource, hkept⟩ | ⟨p, hp, hnone, hid⟩
      · obtain ⟨-, hstr, -⟩ := hok.2 source (hsub hsource)
        refine hsrc source (hsub hsource) d (List.mem_of_mem_filter hkept) ?_
        grind
      · refine absurd (Option.some.inj ?_) (hfresh p hp hnone row h.committed)
        rw [← hid, (below_iff.mp hbelow).1]
    · exact h.live r hr hlive
  | swap hswap => exact ⟨h.of_moved (.swapSplits hswap), hsrc⟩
  | markApplied hmem hnone =>
    refine ⟨fun r' hr' hlive => ?_, hsrc⟩
    obtain ⟨r, hr, rfl⟩ := mem_markTombstonesApplied.mp hr'
    split at hlive
    · next hid =>
        rw [if_pos hid]
        exact (h.live r hr hlive).congr rfl rfl
    · next hid =>
        rw [if_neg hid]
        exact h.live r hr hlive
  | finish | purge => exact ⟨h.live, fun r hr => by cases hr⟩

theorem step {stream : ℤ} {s' : State} {a : Action} (h : StaysPurged grace acceptedAt row s)
    (hcond : StagedInTime grace acceptedAt s a) (hstep : step grace stream s a = some s') :
    StaysPurged grace acceptedAt row s' := by
  obtain ⟨hbase, hlater⟩ := h.toBase.step hstep
  have hcommitted := hlater.committed_sub h.committed
  have hpast := h.past.trans_le hlater.clock
  obtain ⟨b, store, rfl, hw, rfl⟩ | ⟨b, store, leader, rfl, hl, rfl⟩ | ⟨b, node, rfl, -, rfl⟩ |
    ⟨items, gap, rfl, rfl⟩ := step_cases hstep
  · exact ⟨hbase, hcommitted, hpast, h.writer hw hcond, h.sources⟩
  · obtain ⟨hlive, hsources⟩ := h.leaderStep hl
    exact ⟨hbase, hcommitted, hpast, hlive, hsources⟩
  · exact ⟨hbase, hcommitted, hpast, h.live, h.sources⟩
  · exact ⟨hbase, hcommitted, hpast, h.writer (.upsert items gap) trivial, h.sources⟩

end StaysPurged

theorem purge_cases {grace : ℕ} {stream : ℤ} {s s' : State} {picked : List ℤ}
    (h : step grace stream s (.leader (.purge picked)) = some s') :
    s.leader = .idle ∧ s' = { s with store := s.store.purgeTombstones grace picked } := by
  obtain ⟨⟨store, leader⟩, hpair, rfl⟩ := Option.map_eq_some_iff.mp h
  have hl := leaderStep_cases hpair
  generalize hleader : s.leader = l at hl
  cases hl
  exact ⟨rfl, by rw [← hleader]⟩

/-- **A purge reveals nothing.**  The tombstones it deletes hide nothing in any staged or published
split at that moment; and in every later state, whatever merges, compactions and ingests came in
between, what they would hide in a staged or published split was accepted after them. -/
theorem purge_reveals_nothing {grace : ℕ} {stream : ℤ} {acceptedAt : ℕ → ℕ} {as bs : List Action}
    {picked : List ℤ} {s s' s'' : State} (hrun : Runs.run (step grace stream) .init as = some s)
    (hpurge : step grace stream s (.leader (.purge picked)) = some s')
    (hlater : Runs.run (step grace stream) s' bs = some s'')
    (hassume : Runs.Along (step grace stream) (StagedInTime grace acceptedAt) s' bs) {row : Row}
    (hrow : Deleted s s' row) :
    (∀ r ∈ s.store.splits.rows, live r = true → HidesNothing row r) ∧
      ∀ r ∈ s''.store.splits.rows, live r = true → HidesLaterOnly acceptedAt row r := by
  have hbase := Base.of_run hrun
  have hbase' := (hbase.step hpurge).1
  obtain ⟨hidle, rfl⟩ := purge_cases hpurge
  obtain ⟨htable, hgone⟩ := hrow
  have hp : s.store.purgeable grace row = true := by
    by_contra hnot
    refine hgone (List.mem_filter.mpr ⟨htable, ?_⟩)
    grind
  have hnow : ∀ r ∈ s.store.splits.rows, live r = true → HidesNothing row r :=
    fun r hr hlive => hbase.applied.purgeable htable hp hr hlive
  refine ⟨hnow, ?_⟩
  have hstart : StaysPurged grace acceptedAt row
      { s with store := s.store.purgeTombstones grace picked } := by
    refine ⟨hbase', hbase.store.table_sub htable, (purgeable_iff.mp hp).1, ?_, ?_⟩
    · exact fun r hr hlive => (hnow r hr hlive).later
    · intro r hr
      rw [show State.leader _ = Leader.idle from hidle] at hr
      cases hr
  exact (Runs.run_invariant _ (fun _ _ _ h hcond hstep => h.step hcond hstep) hstart hassume
    hlater).live

def beforePurge : List Action := stagedInTime.dropLast

def afterPurge : List Action := ingest "U" [⟨2, some "a", 3⟩]

theorem purge_reveals_nothing_beforePurge :
    ∃ s s' s'' row, Runs.run (step 3600000 1) .init beforePurge = some s ∧
      step 3600000 1 s (.leader (.purge [1])) = some s' ∧
      Runs.run (step 3600000 1) s' afterPurge = some s'' ∧ Deleted s s' row ∧
      ∀ r ∈ s''.store.splits.rows, live r = true →
        HidesLaterOnly (fun key => key * 2000000) row r := by
  obtain ⟨s, hrun, s', hpurge, halong, hsome, row, htable, hgone⟩ :
      ∃ s, Runs.run (step 3600000 1) .init beforePurge = some s ∧
        ∃ s', step 3600000 1 s (.leader (.purge [1])) = some s' ∧
          Runs.Along (step 3600000 1) (StagedInTime 3600000 fun key => key * 2000000) s' afterPurge ∧
          (Runs.run (step 3600000 1) s' afterPurge).isSome ∧
          ∃ row ∈ s.store.tombstones, row ∉ s'.store.tombstones := by
    decide +kernel
  obtain ⟨s'', hlater⟩ := Option.isSome_iff_exists.mp hsome
  exact ⟨s, s', s'', row, hrun, hpurge, hlater, ⟨htable, hgone⟩,
    (purge_reveals_nothing hrun hpurge hlater halong ⟨htable, hgone⟩).2⟩

end RSearch.Visibility
