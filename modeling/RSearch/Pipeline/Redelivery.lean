import RSearch.Pipeline.Owners
import RSearch.Pipeline.ReplayOrder

/-!
# A document that is delivered twice

A write with an explicit id carries a **stamp**, and its tombstone hides the versions of the id with a
smaller stamp.  So of two writes the one with the larger stamp remains.  A write that is delivered twice is
published twice with the same stamp, and its tombstone hides neither copy.  That happens in two ways:

* the publication of a split commits and its call reports an error: the flush builds the batch once more;
* the node crashes after a publication and before the log is confirmed: replay hands the records on once
  more.

Otherwise a record is published **once**.  A worker that has published it keeps it only to confirm it; the
records that may still be published are `waiting`, and these and the published ones are all different.

## Main results

* `Worker.waiting_step`: what a worker publishes is waiting no more.
* `Once.step`: every record is published once or waits to be.
* `one_per_id`: if no publication commits unheard, no crash finds a published record in a file, and the
  stamps of the writes of one document differ, a search with all tombstones shows at most one document of
  an id.
* `redelivery_shows_two`: without the first, and without the second, it may show two.
-/

namespace RSearch.Pipeline

open List Option Wal Worker Runs

variable {M : Type}

/-! ## Records that may still be published -/

def Run.unbuilt : Run M → List WorkItem
  | flushing f _ =>
    match f.stage with
    | .confirm _ => []
    | _ => f.owned
  | _ => []

def Run.built : Run M → List WorkItem
  | flushing f _ =>
    match f.stage with
    | .confirm _ => f.owned
    | _ => []
  | _ => []

theorem Run.owned_eq (run : Run M) : run.owned = run.unbuilt ++ run.built := by
  unfold Run.owned Run.unbuilt Run.built
  cases run with
  | flushing f last => cases hstage : f.stage <;> simp [hstage]
  | _ => rfl

namespace Worker

def waiting (w : Worker M) : List LogRecord :=
  w.queue.filterMap Msg.record? ++ (w.buffer.map (·.record) ++ w.run.unbuilt.map (·.record))

def confirming (w : Worker M) : List LogRecord :=
  w.run.built.map (·.record)

theorem records_perm (w : Worker M) : w.records.Perm (w.waiting ++ w.confirming) := by
  rw [records, waiting, confirming, w.run.owned_eq, map_append]
  simp

variable {env : Env M} {row : Option (StreamRow M)} {w w' : Worker M} {eff : Effect M} {f : Flush M}
  {last : Bool} {input : Input}

theorem waiting_eq_records (h : w.run.built = []) : w.waiting = w.records := by
  rw [waiting, records, w.run.owned_eq, h, append_nil]

theorem built_of_stage (hrun : w.run = .flushing f last)
    (hstage : ∀ mapping, f.stage ≠ .confirm mapping) : w.run.built = [] := by
  grind [Run.built]

theorem waiting_endFlush (w : Worker M) (last : Bool) :
    (w.endFlush last).waiting = w.queue.filterMap Msg.record? ++ w.buffer.map (·.record) := by
  cases last <;> simp [waiting, endFlush, Run.unbuilt]

theorem waiting_endFlush_subperm (w : Worker M) (last : Bool) :
    (w.endFlush last).waiting.Subperm w.waiting := by
  rw [waiting_endFlush, waiting, ← append_assoc]
  exact (sublist_append_left ..).subperm

theorem waiting_subperm (hbuilt : w.run.built = []) (h : w.step env row input = some (w', eff)) :
    w'.waiting.Subperm w.waiting := by
  obtain ⟨gone, hperm, -⟩ := step_records h
  rw [waiting_eq_records hbuilt]
  refine Subperm.trans ?_ hperm.symm.subperm
  refine Subperm.trans ?_ (sublist_append_left ..).subperm
  exact (sublist_append_left ..).subperm.trans w'.records_perm.symm.subperm

theorem waiting_step (h : w.step env row input = some (w', eff)) (hinput : input ≠ .build .committed) :
    (w'.waiting ++ eff.publish.map (·.record)).Subperm w.waiting := by
  have hquiet (hbuilt : w.run.built = []) (hpublish : eff.publish = []) :
      (w'.waiting ++ eff.publish.map (·.record)).Subperm w.waiting := by
    grind [waiting_subperm]
  obtain ⟨msg, queue, -, rfl, ⟨hrun, -⟩ | ⟨hrun, -⟩⟩ | ⟨hrun, -, -, rfl⟩ | ⟨hrun, -, rfl⟩ |
    ⟨hrun, -, -, -, rfl⟩ | ⟨⟨hrun, -⟩ | ⟨hrun, -, -⟩, rfl⟩ | ⟨f, last, hrun, hflush⟩ := step_cases h
  all_goals try exact hquiet (by rw [hrun]; rfl) rfl
  have hnot (hstage : ∀ mapping, f.stage ≠ .confirm mapping) (hpublish : eff.publish = []) :
      (w'.waiting ++ eff.publish.map (·.record)).Subperm w.waiting :=
    hquiet (built_of_stage hrun hstage) hpublish
  have hends {eff : Effect M} (hpublish : eff.publish = []) :
      ((w.endFlush last).waiting ++ eff.publish.map (·.record)).Subperm w.waiting := by
    rw [hpublish, map_nil, append_nil]
    exact w.waiting_endFlush_subperm last
  obtain ⟨hstage, answers, -, heq⟩ | ⟨hstage, heq⟩ | ⟨hstage, heq⟩ | ⟨hstage, outcome, rfl, heq⟩ |
    ⟨mapping, hstage, heq⟩ := flushStep_cases hflush
  · refine hnot (by simp [hstage]) ?_
    cases answers with
    | false =>
      cases heq
      rfl
    | true => cases row <;> cases heq <;> rfl
  · cases heq
    exact hends rfl
  · grind [sift]
  · cases outcome with
    | ok =>
      simp only [build] at heq
      split_ifs at heq
      · cases heq
        exact hends rfl
      · cases heq
        -- the batch leaves the waiting records, and the documents of it are published
        rw [waiting_eq_records (built_of_stage hrun (by simp [hstage])), records_flushing hrun,
          ← append_assoc]
        have hdocs : (docs env w.target.mapping f).Sublist f.owned := by
          refine filter_sublist.trans ?_
          grind [Flush.batch]
        simpa [waiting, Run.unbuilt] using
          (((hdocs.map (·.record)).append_left (w.buffer.map (·.record))).append_left
            (w.queue.filterMap Msg.record?)).subperm
    | committed => exact absurd rfl hinput
    | failed | aborted =>
      refine hnot (by simp [hstage]) ?_
      cases heq
      rfl
  · cases heq
    exact hends rfl

end Worker

def State.waiting (s : State M) : List LogRecord :=
  s.requests.flatMap Request.records ++ (s.replay.records ++ s.hub.workers.flatMap Worker.waiting)

def State.confirming (s : State M) : List LogRecord :=
  s.hub.workers.flatMap Worker.confirming

theorem Hub.records_perm (hub : Hub M) :
    hub.records.Perm (hub.workers.flatMap waiting ++ hub.workers.flatMap confirming) := by
  unfold Hub.records
  induction hub.workers with
  | nil => exact Perm.refl _
  | cons w ws ih =>
    refine (w.records_perm.append ih).trans ?_
    grind

theorem State.count_held_waiting (s : State M) (r : LogRecord) :
    s.held.count r = s.waiting.count r + (s.confirming.count r + s.lost.count r) := by
  have hhub := s.hub.records_perm.count_eq r
  grind [count_held, confirming, waiting]

section Keeps

variable {env : Env M} {s s' : State M} {g : Worker M → List LogRecord}

variable {blocking ok : Bool} {hub hub' : Hub M} {snd : Sender M} {d : Delivery M}

theorem Hub.Delivers.keeps (hnew : ∀ name row, g { name, target := row } = [])
    (hchannel : ∀ w queue permits, g { w with queue, permits } = g w)
    (h : Delivers env blocking ok hub snd d hub') : hub'.workers.flatMap g = hub.workers.flatMap g := by
  have hworkers := hub.streamInfo_workers env snd.record.item.stream ok
  cases h with
  | info _ hinfo | infoFails _ hinfo =>
    rw [hinfo] at hworkers
    rw [hworkers]
  | spawns =>
    grind [spawn]
  | reserves _ hw | fills _ hw => exact Slots.flatMap_set g hw (hchannel ..)
  | found | missing | locks | resolves | resolveFails | closed | retries | saturated => rfl

theorem confirming_of_delivers (h : Hub.Delivers env blocking ok hub snd d hub') :
    hub'.workers.flatMap confirming = hub.workers.flatMap confirming :=
  h.keeps (fun _ _ => rfl) fun _ _ _ => rfl

theorem confirming_of_serves {j : ℕ} {r : Request M} (h : State.Serves env s j r s') :
    s'.confirming = s.confirming := by
  cases h with
  | plan | issue | route | answer => rfl
  | deliver _ _ hd =>
    rw [State.confirming, State.afterDelivery_hub]
    exact confirming_of_delivers hd

theorem confirming_of_replays (h : State.Replays env ok s s') : s'.confirming = s.confirming := by
  cases h with
  | stops | yields | issues => rfl
  | tomb => rw [State.confirming, State.replayTomb_workers, State.confirming]
  | upsert => rw [State.confirming, State.replayUpsert_workers, State.confirming]
  | check => rw [State.confirming, State.replayCheck_hub, State.confirming]
  | deliver _ hd =>
    rw [State.confirming, State.afterReplayDelivery_hub]
    exact confirming_of_delivers hd

end Keeps

/-! ## Every record is published once -/

def State.issuing (s : State M) : List LogRecord :=
  s.hub.store.published.map Prod.snd ++ s.waiting

/-- A step makes `fresh` records waiting, publishes some of those that wait, and drops others. -/
structure Publishing (s s' : State M) (fresh : List LogRecord) : Prop where
  issuing : s'.issuing.Subperm (s.issuing ++ fresh)
  new : ∀ r ∈ fresh, s.book.nextRid ≤ r.rid
  nodup : (fresh.map (·.rid)).Nodup

section Steps

variable {env : Env M} {s s' : State M}

theorem Publishing.of_waiting (hpublished : s'.hub.store.published = s.hub.store.published)
    (hwaiting : s'.waiting.Subperm s.waiting) : Publishing s s' [] where
  issuing := by
    rw [append_nil, State.issuing, State.issuing, hpublished]
    exact (subperm_append_left _).mpr hwaiting
  new r hr := by cases hr
  nodup := nodup_nil

theorem waiting_of_flow {gone : List LogRecord} {entries : List (LogRecord × Fate M)}
    (hflow : Flow s s' gone entries) (hconfirming : s'.confirming = s.confirming)
    (hlost : s'.lost = s.lost) : s'.waiting.Subperm s.waiting := by
  refine subperm_ext_iff.mpr fun r _ => ?_
  have hcount := hflow.held.count_eq r
  grind [State.count_held_waiting]

theorem Publishing.of_step {a : Action M} (hstep : s.step env a = some s') (hcrash : a ≠ .crash)
    (hcommitted : ∀ i, a ≠ .worker i (.build .committed)) : ∃ fresh, Publishing s s' fresh := by
  cases State.moves_of_step hstep with
  | outside _ hpublished => exact ⟨[], .of_waiting hpublished (List.Subperm.refl _)⟩
  | @append plans new b hb =>
    have happended := Appended.of_appendPlans hb
    refine ⟨new.flatten.map (·.record), ?_, fun r hr => (Numbered.new happended r hr).1, ?_⟩
    · refine subperm_ext_iff.mpr fun r _ => le_of_eq ?_
      simp only [State.issuing, State.waiting, count_append, flatMap_append, flatMap_singleton]
      grind [Request.records]
    · rw [happended.rids]
      exact nodup_range' ..
  | appendFails | unlink => exact ⟨[], .of_waiting rfl (List.Subperm.refl _)⟩
  | request hj hserves =>
    obtain ⟨r', entries, hmove⟩ := hserves.move
    exact ⟨[], .of_waiting (State.published_of_serves hserves)
      (waiting_of_flow (hmove.flow hj) (confirming_of_serves hserves) hmove.lost)⟩
  | replay _ hreplays =>
    obtain ⟨entries, hmove⟩ := hreplays.move
    exact ⟨[], .of_waiting (State.published_of_replays hreplays)
      (waiting_of_flow hmove.flow (confirming_of_replays hreplays) hmove.lost)⟩
  | @worker i input w w' eff hi hworker =>
    have hgives := Slots.subperm_of_gives Worker.waiting hi
      (Worker.waiting_step hworker fun hinput => hcommitted i (by rw [hinput]))
    refine ⟨[], subperm_ext_iff.mpr fun r _ => ?_, ?_, nodup_nil⟩
    swap
    · exact fun r hr => absurd hr not_mem_nil
    have hcount := hgives.count_le r
    simp only [State.issuing, State.waiting, State.apply_hub, State.apply_requests,
      State.apply_replay, Hub.setWorker, map_append, List.map_map, count_append,
      append_nil, Function.comp_def] at hcount ⊢
    omega
  | @flushStream i w hi =>
    have hsame : Worker.waiting { w with queue := w.queue ++ [.flush] } = w.waiting := by
      simp [Worker.waiting, Msg.record?]
    refine ⟨[], .of_waiting rfl ?_⟩
    simp only [State.waiting, Hub.setWorker, Slots.flatMap_set Worker.waiting hi hsame]
    exact List.Subperm.refl _
  | crash => exact absurd rfl hcrash

end Steps

structure Once (s : State M) : Prop where
  unshown : Unshown s
  nodup : (s.issuing.map (·.rid)).Nodup

namespace Once

variable {env : Env M} {s s' : State M}

theorem init : Once (State.init : State M) where
  unshown := .init
  nodup := nodup_nil

theorem lt (h : Once s) : ∀ r ∈ s.issuing, r.rid < s.book.nextRid := by
  intro r hr
  rcases mem_append.mp hr with hr | hr
  · obtain ⟨e, he, rfl⟩ := mem_map.mp hr
    exact h.unshown.lt _ (.inl ⟨e, he, rfl⟩)
  · refine h.unshown.housed.lt r (count_pos_iff.mp ?_)
    grind [State.count_held_waiting]

theorem step (h : Once s) {a : Action M} (hstep : s.step env a = some s') (hcrash : a ≠ .crash)
    (hcommitted : ∀ i, a ≠ .worker i (.build .committed)) : Once s' := by
  refine ⟨h.unshown.next hstep, ?_⟩
  obtain ⟨fresh, hpublishing⟩ := Publishing.of_step hstep hcrash hcommitted
  obtain ⟨l, hperm, hsublist⟩ := hpublishing.issuing
  refine (hperm.map _).nodup_iff.mp (Nodup.sublist (hsublist.map _) ?_)
  rw [map_append]
  refine h.nodup.append hpublishing.nodup fun rid hrid hnew => ?_
  obtain ⟨r, hr, rfl⟩ := mem_map.mp hrid
  obtain ⟨r', hr', heq⟩ := mem_map.mp hnew
  exact absurd (h.lt r hr) (Nat.not_lt.mpr (heq ▸ hpublishing.new r' hr'))

theorem restart (h : Once s)
    (hunpublished : ∀ r ∈ s.book.surviving, ∀ e ∈ s.hub.store.published, e.2.rid ≠ r.rid) :
    Once s.restart := by
  refine ⟨h.unshown.restart, ?_⟩
  have hissuing : s.restart.issuing = s.hub.store.published.map Prod.snd ++ s.book.surviving := by
    simp [State.issuing, State.waiting, State.restart, Replay.records]
  rw [hissuing, map_append]
  have hnodup := h.nodup
  rw [State.issuing, map_append] at hnodup
  refine hnodup.of_append_left.append h.unshown.housed.numbered.restart.nodup fun rid hrid hsurvives => ?_
  obtain ⟨r, hr, rfl⟩ := mem_map.mp hsurvives
  obtain ⟨r', hr', heq⟩ := mem_map.mp hrid
  obtain ⟨e, he, rfl⟩ := mem_map.mp hr'
  exact hunpublished r hr e he heq

end Once

/-! ## Stamps -/

def SameStamp (a b : WalItem) : Prop :=
  a.tombstone = true ∧ b.tombstone = true ∧ a.stream = b.stream ∧ a.id = b.id ∧ a.seq = b.seq

instance (a b : WalItem) : Decidable (SameStamp a b) :=
  inferInstanceAs (Decidable (_ ∧ _))

theorem SameStamp.symm {a b : WalItem} (h : SameStamp a b) : SameStamp b a :=
  ⟨h.2.1, h.1, h.2.2.1.symm, h.2.2.2.1.symm, h.2.2.2.2.symm⟩

def State.known (s : State M) : List LogRecord :=
  s.hub.store.published.map Prod.snd ++ s.book.stored

def Stamped (s : State M) : Prop :=
  ∀ a ∈ s.known, ∀ b ∈ s.known, a.rid ≠ b.rid → ¬ SameStamp a.item b.item

def StampsNew (s : State M) (items : List WalItem) : Prop :=
  items.Pairwise (fun a b => ¬ SameStamp a b) ∧ ∀ a ∈ items, ∀ r ∈ s.known, ¬ SameStamp a r.item

instance (s : State M) (items : List WalItem) : Decidable (StampsNew s items) :=
  inferInstanceAs (Decidable (_ ∧ _))

variable {b b' : Book}

theorem items_of_appendRoutes {news : List NewRoute} {routes : List Route}
    (h : b.appendRoutes news = some (routes, b')) : routes.map (·.record.item) = news.map (·.item) := by
  induction news generalizing b routes with
  | nil =>
    cases h
    rfl
  | cons new news ih =>
    obtain ⟨⟨r, b₁⟩, hfirst, hrest⟩ := bind_eq_some_iff.mp h
    obtain ⟨⟨rest, b₂⟩, htail, heq⟩ := map_eq_some_iff.mp hrest
    grind [Book.append]

theorem items_of_appendPlans {news : List (List NewRoute)} {plans : List (List Route)}
    (h : b.appendPlans news = some (plans, b')) :
    plans.flatten.map (·.record.item) = news.flatten.map (·.item) := by
  induction news generalizing b plans with
  | nil =>
    cases h
    rfl
  | cons new news ih =>
    obtain ⟨⟨routes, b₁⟩, hfirst, hrest⟩ := bind_eq_some_iff.mp h
    obtain ⟨⟨rest, b₂⟩, htail, heq⟩ := map_eq_some_iff.mp hrest
    grind [items_of_appendRoutes]

namespace Stamped

variable {env : Env M} {s s' : State M}

theorem of_subset (h : Stamped s) (hknown : s'.known ⊆ s.known) : Stamped s' :=
  fun a ha b hb => h a (hknown ha) b (hknown hb)

theorem append (h : Stamped s) {records : List LogRecord}
    (hstored : s'.book.stored = s.book.stored ++ records)
    (hpublished : s'.hub.store.published = s.hub.store.published)
    (hnew : StampsNew s (records.map (·.item))) : Stamped s' := by
  have : Std.Symm fun a b : LogRecord => ¬ SameStamp a.item b.item := ⟨fun _ _ hab hba => hab hba.symm⟩
  have hpairwise := (pairwise_map.mp hnew.1).forall
  have hold (a : LogRecord) (ha : a ∈ records) (b : LogRecord) (hb : b ∈ s.known) :
      ¬ SameStamp a.item b.item := hnew.2 a.item (mem_map_of_mem ha) b hb
  have hcases {r : LogRecord} (hr : r ∈ s'.known) : r ∈ s.known ∨ r ∈ records := by
    grind [State.known]
  intro a ha b hb hrid
  rcases hcases ha with ha | ha <;> rcases hcases hb with hb | hb
  · exact h a ha b hb hrid
  · exact fun hsame => hold b hb a ha hsame.symm
  · exact hold a ha b hb
  · grind

theorem published_known (hhoused : Housed s) (hmatched : ∀ w ∈ s.hub.workers, w.Matched) {a : Action M}
    (hstep : s.step env a = some s') : s'.hub.store.published.map Prod.snd ⊆ s.known := by
  obtain ⟨new, hpublished, hnew⟩ := State.published_of_step hmatched hstep
  rw [hpublished, map_append]
  intro r hr
  rcases mem_append.mp hr with hr | hr
  · exact mem_append_left _ hr
  · obtain ⟨e, he, rfl⟩ := mem_map.mp hr
    obtain ⟨x, hx, rfl⟩ := mem_map.mp he
    obtain ⟨-, i, outcome, w, -, hi, howned⟩ := hnew x hx
    have hholds : s.hub.Holds x := ⟨w, mem_of_getElem? hi, .inr (.inr howned)⟩
    refine mem_append_right _ (hhoused.held.subset ?_)
    grind [Hub.Holds.mem_records, State.held]

end Stamped

/-- **The condition**: no publication commits unheard, no crash finds a published record in a file, and
new writes come with stamps that no write of the same document has. -/
def DeliveredOnce (s : State M) : Action M → Prop
  | .worker _ (.build .committed) => False
  | .crash => ∀ r ∈ s.book.surviving, ∀ e ∈ s.hub.store.published, e.2.rid ≠ r.rid
  | .append plans => StampsNew s (plans.flatten.map (·.item))
  | .appendFails routes => StampsNew s (routes.map (·.item))
  | _ => True

instance (s : State M) (a : Action M) : Decidable (DeliveredOnce s a) := by
  induction a using Action.casesOn with
  | worker _ b =>
    induction b using Input.casesOn with
    | build o => induction o using BuildOutcome.casesOn <;> dsimp only [DeliveredOnce] <;> infer_instance
    | _ => exact instDecidableTrue
  | _ => dsimp only [DeliveredOnce]; infer_instance

theorem Stamped.step {env : Env M} {s s' : State M} (h : Stamped s) (hhoused : Housed s)
    (hmatched : ∀ w ∈ s.hub.workers, w.Matched) {a : Action M} (hcond : DeliveredOnce s a)
    (hstep : s.step env a = some s') : Stamped s' := by
  have hpublished := Stamped.published_known hhoused hmatched hstep
  have hkeeps (hstored : s'.book.stored ⊆ s.book.stored) : Stamped s' :=
    h.of_subset (append_subset.mpr ⟨hpublished, fun r hr => mem_append_right _ (hstored hr)⟩)
  cases State.moves_of_step hstep with
  | outside | flushStream | unlink => exact hkeeps (Subset.refl _)
  | append hb =>
    refine h.append (Appended.of_appendPlans hb).stored rfl ?_
    rw [List.map_map]
    exact items_of_appendPlans hb ▸ hcond
  | appendFails hb =>
    refine h.append (Appended.of_appendRoutes hb).stored rfl ?_
    rw [List.map_map]
    exact items_of_appendRoutes hb ▸ hcond
  | request _ hserves =>
    obtain ⟨r', entries, hmove⟩ := hserves.move
    grind [RequestMove.stored]
  | replay _ hreplays =>
    obtain ⟨entries, hmove⟩ := hreplays.move
    grind [ReplayMove.stored]
  | worker => grind [State.apply_stored]
  | crash => exact hkeeps (filter_subset_self ..)

/-! ## What a search shows -/

def Tombstone.hides (t : Tombstone) (e : ℕ × LogRecord) : Bool :=
  t.streamId == e.1 && t.docId == e.2.item.id && decide (e.2.item.seq < t.beforeSeq)

/-- The versions of a document with an explicit id that a search of the stream's row shows. -/
def State.shown (s : State M) (tombs : List Tombstone) (row : ℕ) (docId : String) :
    List (ℕ × LogRecord) :=
  s.hub.store.published.filter fun e =>
    e.1 == row && e.2.item.id == docId && e.2.item.tombstone && !tombs.any (·.hides e)

/-- Once every published write has its tombstone among those issued and any others, a search shows at
most one version. -/
def State.OnePerId (s : State M) : Prop :=
  ∀ others : List Tombstone,
    (∀ e ∈ s.hub.store.published, e.2.item.tombstone = true →
      ∃ t ∈ s.hub.store.tombstones ++ others,
        t.streamId = e.1 ∧ t.docId = e.2.item.id ∧ t.beforeSeq = e.2.item.seq) →
    ∀ row docId, (s.shown (s.hub.store.tombstones ++ others) row docId).length ≤ 1

structure Delivered (env : Env M) (s : State M) : Prop where
  once : Once s
  stamped : Stamped s
  matched : ∀ w ∈ s.hub.workers, w.Matched
  rows : RowsInv env False s
  owned : ∃ owner, Owned owner s

namespace Delivered

variable {env : Env M} {s s' : State M}

theorem init (env : Env M) : Delivered env (State.init : State M) where
  once := .init
  stamped a ha := by cases ha
  matched := State.matched_init
  rows := .init env False
  owned := ⟨_, .init⟩

theorem step (h : Delivered env s) {a : Action M} (hcond : DeliveredOnce s a)
    (hstep : s.step env a = some s') : Delivered env s' := by
  obtain ⟨owner, howned⟩ := h.owned
  refine ⟨?_, h.stamped.step h.once.unshown.housed h.matched hcond hstep,
    State.matched_step h.matched hstep, h.rows.step False.elim hstep,
    howned.step h.rows h.matched hstep⟩
  by_cases hcrash : a = .crash
  · subst hcrash
    cases hstep
    exact h.once.restart hcond
  · refine h.once.step hstep hcrash fun i hi => ?_
    subst hi
    exact hcond

end Delivered

section Shown

variable {env : Env M} {s : State M} {tombs : List Tombstone} {row : ℕ} {docId : String}
  {a b : ℕ × LogRecord}

theorem State.mem_shown : a ∈ s.shown tombs row docId ↔ a ∈ s.hub.store.published ∧ a.1 = row ∧
    a.2.item.id = docId ∧ a.2.item.tombstone = true ∧ ∀ t ∈ tombs, t.hides a = false := by
  grind [shown]

theorem not_lt_of_shown (htombs : ∀ e ∈ s.hub.store.published, e.2.item.tombstone = true →
      ∃ t ∈ tombs, t.streamId = e.1 ∧ t.docId = e.2.item.id ∧ t.beforeSeq = e.2.item.seq)
    (ha : a ∈ s.shown tombs row docId) (hb : b ∈ s.shown tombs row docId) :
    ¬ a.2.item.seq < b.2.item.seq := by
  intro hlt
  obtain ⟨-, harow, haid, -, hunhidden⟩ := State.mem_shown.mp ha
  obtain ⟨hb, hbrow, hbid, hflag, -⟩ := State.mem_shown.mp hb
  obtain ⟨t, ht, hrow, hid, hseq⟩ := htombs b hb hflag
  have hhides : t.hides a = true := by
    simp [Tombstone.hides, hrow, hid, hseq, harow, hbrow, haid, hbid, hlt]
  rw [hunhidden t ht] at hhides
  cases hhides

theorem Delivered.rid_eq (h : Delivered env s)
    (htombs : ∀ e ∈ s.hub.store.published, e.2.item.tombstone = true →
      ∃ t ∈ tombs, t.streamId = e.1 ∧ t.docId = e.2.item.id ∧ t.beforeSeq = e.2.item.seq)
    (ha : a ∈ s.shown tombs row docId) (hb : b ∈ s.shown tombs row docId) : a.2.rid = b.2.rid := by
  by_contra hrid
  obtain ⟨owner, howned⟩ := h.owned
  have hseq : a.2.item.seq = b.2.item.seq := by
    by_contra hne
    exact not_lt_of_shown htombs ha hb
      (Int64.lt_of_le_of_ne (Int64.not_lt.mp (not_lt_of_shown htombs hb ha)) hne)
  obtain ⟨hapub, harow, haid, haflag, -⟩ := State.mem_shown.mp ha
  obtain ⟨hbpub, hbrow, hbid, hbflag, -⟩ := State.mem_shown.mp hb
  have hstream := howned.same_stream hapub hbpub (harow.trans hbrow.symm)
  refine h.stamped a.2 ?_ b.2 ?_ hrid ⟨haflag, hbflag, hstream, haid.trans hbid.symm, hseq⟩
  · exact mem_append_left _ (mem_map_of_mem hapub)
  · exact mem_append_left _ (mem_map_of_mem hbpub)

theorem Delivered.onePerId (h : Delivered env s) : s.OnePerId := by
  intro others htombs row docId
  have hnodup := h.once.nodup
  rw [State.issuing, map_append] at hnodup
  have hshown : ((s.shown (s.hub.store.tombstones ++ others) row docId).map (·.2.rid)).Nodup := by
    refine Nodup.sublist (filter_sublist.map _) ?_
    grind
  rcases hlist : s.shown (s.hub.store.tombstones ++ others) row docId with _ | ⟨a, _ | ⟨b, rest⟩⟩
  · exact Nat.zero_le _
  · exact le_rfl
  · -- two versions would be one record, which is published once
    have hrid := h.rid_eq htombs (a := a) (b := b) (hlist ▸ mem_cons_self)
      (hlist ▸ mem_cons_of_mem _ mem_cons_self)
    rw [hlist] at hshown
    simp [hrid] at hshown

end Shown

/-- **A search shows at most one document of an id**, in every run in which nothing is delivered twice
and the writes of one document have different stamps. -/
theorem one_per_id {env : Env M} {as : List (Action M)} {s : State M}
    (hrun : Runs.run (State.step env) State.init as = some s)
    (hcond : Runs.Along (State.step env) DeliveredOnce State.init as) : s.OnePerId :=
  (Runs.run_invariant (State.step env) (fun _ _ _ h hc hstep => Delivered.step h hc hstep)
    (Delivered.init env) hcond hrun).onePerId

/-! ## A publication that is heard of too late -/

def writeA (seq : Int64) : Action Unit :=
  .append [[⟨false, ⟨"s", "a", seq, true, "x"⟩, 0⟩]]

/-- Document `a` is written, its tombstone is issued, and its worker is about to build. -/
def aboutToBuild : List (Action Unit) :=
  [.createStream "s" (), writeA 1] ++ serve 0 11 ++ .worker 0 .recv :: (publishes 0).take 3

def writtenTwice : List (Action Unit) :=
  aboutToBuild ++ [.worker 0 (.build .ok), .worker 0 .tick, writeA 2] ++ serve 1 8 ++
    .worker 0 .recv :: publishes 0

theorem one_per_id_writtenTwice :
    ∃ s, Runs.run (State.step plain) State.init writtenTwice = some s ∧ s.OnePerId ∧
      s.hub.store.published.length = 2 ∧ s.hub.store.tombstones.length = 2 ∧
      (s.shown s.hub.store.tombstones 0 "a").length = 1 := by
  obtain ⟨s, hrun, hend⟩ : ∃ s, Runs.run (State.step plain) State.init writtenTwice = some s ∧
      s.hub.store.published.length = 2 ∧ s.hub.store.tombstones.length = 2 ∧
      (s.shown s.hub.store.tombstones 0 "a").length = 1 := by
    decide +kernel
  exact ⟨s, hrun, one_per_id hrun (by decide +kernel), hend⟩

def retried : List (Action Unit) :=
  aboutToBuild ++ [.worker 0 (.build .committed), .worker 0 (.lookup true), .worker 0 .tick,
    .worker 0 (.build .ok)]

def replayedAgain : List (Action Unit) :=
  aboutToBuild ++ [.worker 0 (.build .ok), .crash] ++ replays 11 ++ .worker 0 .recv :: publishes 0

def State.ShowsTwo (s : State Unit) : Prop :=
  (∀ e ∈ s.hub.store.published, e.2.item.tombstone = true →
    ∃ t ∈ s.hub.store.tombstones,
      t.streamId = e.1 ∧ t.docId = e.2.item.id ∧ t.beforeSeq = e.2.item.seq) ∧
    (s.shown s.hub.store.tombstones 0 "a").length = 2

instance (s : State Unit) : Decidable s.ShowsTwo :=
  inferInstanceAs (Decidable (_ ∧ _))

theorem State.ShowsTwo.not_onePerId {s : State Unit} (h : s.ShowsTwo) : ¬ s.OnePerId := by
  intro hone
  have hle := hone [] (by simpa using h.1) 0 "a"
  rw [append_nil, h.2] at hle
  omega

/-- **A write that is delivered twice is shown twice.** -/
theorem redelivery_shows_two :
    (∃ s, Runs.run (State.step plain) State.init retried = some s ∧ ¬ s.OnePerId) ∧
      ∃ s, Runs.run (State.step plain) State.init replayedAgain = some s ∧ ¬ s.OnePerId := by
  have hshows (as : List (Action Unit))
      (h : ∃ s, Runs.run (State.step plain) State.init as = some s ∧ s.ShowsTwo) :
      ∃ s, Runs.run (State.step plain) State.init as = some s ∧ ¬ s.OnePerId := by
    obtain ⟨s, hrun, hend⟩ := h
    exact ⟨s, hrun, hend.not_onePerId⟩
  exact ⟨hshows retried (by decide +kernel), hshows replayedAgain (by decide +kernel)⟩

end RSearch.Pipeline
