import RSearch.Pipeline.Custody
import RSearch.Pipeline.Retired

/-!
# Replay hands its records over

Replay hands the records of the log one by one to the workers of their streams: it asks the map for a
sender, and then sends, waiting while the channel is full.
-/

namespace RSearch.Pipeline

open List Wal Subset State Replay Hub

variable {M : Type}

/-! ## Workers -/

def Run.routed : Run M → Bool
  | .receiving | .flushing _ false => true
  | .unpublished | .draining | .flushing _ true | .exited => false

def Run.closing : Run M → Bool
  | .unpublished => true
  | .receiving | .draining | .flushing _ _ | .exited => false

variable {run : Run M} {env : Env M} {s s' : State M} {a : Action M}

theorem Run.closed_of_routed (h : run.routed = true) : run.closed = false := by
  cases run with
  | receiving => rfl
  | flushing f last => cases last <;> simp_all [routed, closed]
  | unpublished | draining | exited => cases h

theorem Run.drained_of_closed (h : run.closed = false) : run.drained = false := by
  cases run with
  | receiving | unpublished => rfl
  | flushing f last => cases last <;> simp_all [drained, closed]
  | draining | exited => cases h

namespace Worker

/-- The worker has the record and will still see to it: it is in the flush, in the buffer, or in the
channel and the channel is still read. -/
def Takes (w : Worker M) (r : LogRecord) : Prop :=
  (w.run.drained = false ∧ r ∈ w.queue.filterMap Msg.record?) ∨ r ∈ w.buffer.map (·.record) ∨
    r ∈ w.run.owned.map (·.record)

def OwnsTaken (w : Worker M) : Prop :=
  ∀ f last, w.run = .flushing f last → f.owned ⊆ f.taken

variable {env : Env M} {row : Option (StreamRow M)} {w w' : Worker M} {eff : Effect M} {f : Flush M}
  {last : Bool} {input : Input} {r : LogRecord}

theorem ownsTaken_of_run (hrun : ∀ f last, w.run ≠ .flushing f last) : w.OwnsTaken :=
  fun f last h => absurd h (hrun f last)

theorem ownsTaken_flushing (hrun : w.run = .flushing f last) (h : f.owned ⊆ f.taken) : w.OwnsTaken := by
  intro f' last' hrun'
  rw [hrun] at hrun'
  cases hrun'
  exact h

theorem ownsTaken_endFlush (w : Worker M) (last : Bool) : (w.endFlush last).OwnsTaken := by
  grind [ownsTaken_of_run, endFlush]

structure FlushGoesOn (w w' : Worker M) (f : Flush M) (eff : Effect M) : Prop where
  queue : w'.queue = w.queue
  buffer : w'.buffer = w.buffer
  drained : w'.run.drained = w.run.drained
  routed : w'.run.routed = w.run.routed
  ownsTaken : w'.OwnsTaken
  unpublish : eff.unpublish = false
  owned : ∀ x ∈ f.owned, x ∈ w'.run.owned ∨ x.record ∈ eff.lost ∨ x.record ∈ eff.confirmed
  fates : ∀ e ∈ eff.confirm.getD [], e.2.streamId?.isSome = true

theorem drained_endFlush (hrun : w.run = .flushing f last) :
    (w.endFlush last).run.drained = w.run.drained := by
  rw [hrun]
  cases last <;> rfl

theorem routed_endFlush (hrun : w.run = .flushing f last) :
    (w.endFlush last).run.routed = w.run.routed := by
  rw [hrun]
  cases last <;> rfl

theorem FlushGoesOn.of_stage {f' : Flush M} {target : StreamRow M} (hrun : w.run = .flushing f last)
    (hsubset : f.owned ⊆ f.taken) (htaken : f'.taken = f.taken) (howned : f'.owned = f.owned)
    (hunpublish : eff.unpublish = false) (hconfirm : eff.confirm = none) :
    FlushGoesOn w { w with target, run := .flushing f' last } f eff where
  queue := rfl
  buffer := rfl
  drained := by
    rw [hrun]
    cases last <;> rfl
  routed := by
    rw [hrun]
    cases last <;> rfl
  ownsTaken := ownsTaken_flushing rfl (by rwa [howned, htaken])
  unpublish := hunpublish
  owned x hx := .inl (by rwa [Run.owned, howned])
  fates e he := by
    rw [hconfirm] at he
    cases he

theorem FlushGoesOn.of_end (hrun : w.run = .flushing f last) (hunpublish : eff.unpublish = false)
    (hfates : ∀ e ∈ eff.confirm.getD [], e.2.streamId?.isSome = true)
    (howned : ∀ x ∈ f.owned, x.record ∈ eff.lost ∨ x.record ∈ eff.confirmed) :
    FlushGoesOn w (w.endFlush last) f eff where
  queue := rfl
  buffer := rfl
  drained := drained_endFlush hrun
  routed := routed_endFlush hrun
  ownsTaken := ownsTaken_endFlush w last
  unpublish := hunpublish
  owned x hx := .inr (howned x hx)
  fates := hfates

variable {fate : WorkItem → Fate M}

theorem fates_map {items : List WorkItem} (hfate : ∀ x, (fate x).streamId?.isSome = true) :
    ∀ e ∈ (some (items.map fun x => (x.record, fate x))).getD [], e.2.streamId?.isSome = true := by
  grind

theorem flushGoesOn_finish (hrun : w.run = .flushing f last) (hfate : ∀ x, (fate x).streamId?.isSome = true) :
    FlushGoesOn w (w.finish f last fate).1 f (w.finish f last fate).2 := by
  refine .of_end hrun rfl (fates_map hfate) fun x hx => ?_
  grind [Flush.batch, finish, Effect.confirmed]

theorem flushGoesOn_sift (hrun : w.run = .flushing f last) (hsubset : f.owned ⊆ f.taken) :
    FlushGoesOn w (w.sift f last).1 f (w.sift f last).2 := by
  unfold sift
  split_ifs with hstale hlive
  · exact .of_stage hrun hsubset rfl rfl rfl rfl
  all_goals
    have hbatch : f.batch = f.owned := by
      grind [Flush.batch, stale]
    -- an item of the batch is live or stale
    have hsplit : ∀ x ∈ f.owned, x ∈ w.live f ∨ x.record ∈ Effect.confirmed
        { confirm := some ((w.stale f).map fun x => (x.record, (.stale x.streamId : Fate M))) } := by
      intro x hx
      by_cases hid : x.streamId = w.target.id
      · exact .inl (mem_filter.mpr ⟨hbatch ▸ hx, by simpa using hid⟩)
      · refine Or.inr ?_
        simp only [Effect.confirmed, Option.getD_some, map_map]
        exact mem_map.mpr ⟨x, mem_filter.mpr ⟨hbatch ▸ hx, by simpa using hid⟩, rfl⟩
  · refine .of_end hrun rfl (fates_map fun _ => rfl) fun x hx => ?_
    grind
  · refine ⟨rfl, rfl, ?_, ?_, ownsTaken_flushing rfl fun x hx => ?_, rfl, fun x hx => ?_,
      fates_map fun _ => rfl⟩
    · rw [hrun]
      cases last <;> rfl
    · rw [hrun]
      cases last <;> rfl
    · exact hsubset (hbatch ▸ mem_of_mem_filter hx)
    · rcases hsplit x hx with hx | hx
      · exact .inl hx
      · exact .inr (.inr hx)

theorem flushGoesOn_of_eq {q : Worker M × Effect M} (heq : q = (w', eff)) (h : FlushGoesOn w q.1 f q.2) :
    FlushGoesOn w w' f eff := by
  rw [heq] at h
  exact h

theorem flushGoesOn (hrun : w.run = .flushing f last) (hsubset : f.owned ⊆ f.taken)
    (h : w.flushStep env row f last input = some (w', eff)) : FlushGoesOn w w' f eff := by
  obtain ⟨-, answers, -, heq⟩ | ⟨-, heq⟩ | ⟨-, heq⟩ | ⟨-, outcome, -, heq⟩ | ⟨mapping, -, heq⟩ :=
    flushStep_cases h
  · refine flushGoesOn_of_eq heq ?_
    cases answers with
    | false => exact .of_stage hrun hsubset rfl rfl rfl rfl
    | true => cases row <;> exact .of_stage hrun hsubset rfl rfl rfl rfl
  · refine flushGoesOn_of_eq heq (.of_end hrun rfl (fates_map fun _ => rfl) fun x hx => Or.inr ?_)
    grind [giveUp, Effect.confirmed]
  · grind [flushGoesOn_sift]
  · refine flushGoesOn_of_eq heq ?_
    cases outcome with
    | ok =>
      unfold build
      split_ifs
      · exact flushGoesOn_finish hrun fun _ => rfl
      · exact .of_stage hrun hsubset rfl rfl rfl rfl
    | failed | committed | aborted => exact .of_stage hrun hsubset rfl rfl rfl rfl
  · refine flushGoesOn_of_eq heq (flushGoesOn_finish hrun fun x => ?_)
    split_ifs <;> rfl

structure StepGives (w w' : Worker M) (eff : Effect M) : Prop where
  takes : ∀ r, w.Takes r → w'.Takes r ∨ r ∈ eff.lost ∨ r ∈ eff.confirmed
  ownsTaken : w'.OwnsTaken
  opened : w.run.closed = false → w.run.closing = false → w'.run.closed = false
  routed : w.run.routed = true → w'.run.routed = true ∨ eff.unpublish = true
  fates : ∀ e ∈ eff.confirm.getD [], e.2.streamId?.isSome = true

theorem takes_drain {queue : List Msg} {msg : Msg} (hqueue : w.queue = msg :: queue) (h : w.Takes r) :
    ({ w with queue }.drain msg).Takes r := by
  rcases h with ⟨hdrained, hr⟩ | hr | hr
  · rw [hqueue] at hr
    cases msg with
    | flush => exact .inl ⟨hdrained, hr⟩
    | doc x =>
      rcases mem_cons.mp hr with rfl | hr
      · exact .inr (.inl (by simp [drain]))
      · exact .inl ⟨hdrained, hr⟩
  · cases msg with
    | flush => exact .inr (.inl hr)
    | doc x =>
      refine .inr (Or.inl ?_)
      grind [drain]
  · exact .inr (.inr (by rwa [run_drain]))

theorem takes_startFlush (howned : w.run.owned = []) (hqueue : last = true → w.queue = [])
    (h : w.Takes r) : (w.startFlush last).Takes r := by
  rcases h with ⟨-, hr⟩ | hr | hr
  · cases last with
    | false => exact .inl ⟨rfl, hr⟩
    | true =>
      rw [hqueue rfl] at hr
      cases hr
  · exact .inr (.inr hr)
  · rw [howned] at hr
    cases hr

theorem ownsTaken_startFlush (w : Worker M) (last : Bool) : (w.startFlush last).OwnsTaken :=
  ownsTaken_flushing rfl (refl _)

theorem StepGives.of_flush (hrun : w.run = .flushing f last) (h : FlushGoesOn w w' f eff) :
    StepGives w w' eff where
  takes r hr := by
    rcases hr with ⟨hdrained, hr⟩ | hr | hr
    · exact .inl (.inl ⟨by rwa [h.drained], by rwa [h.queue]⟩)
    · exact .inl (.inr (.inl (by rwa [h.buffer])))
    · rw [hrun] at hr
      obtain ⟨x, hx, rfl⟩ := mem_map.mp hr
      rcases h.owned x hx with hx | hx
      · exact .inl (.inr (.inr (mem_map_of_mem hx)))
      · exact .inr hx
  ownsTaken := h.ownsTaken
  opened hclosed _ := by
    refine Run.closed_of_routed (h.routed.trans ?_)
    rw [hrun] at hclosed ⊢
    cases last with
    | false => rfl
    | true => cases hclosed
  routed hrouted := .inl (h.routed.trans hrouted)
  fates := h.fates

theorem takes_step (howns : w.OwnsTaken) (h : w.step env row input = some (w', eff)) :
    StepGives w w' eff := by
  obtain ⟨msg, queue, hqueue, rfl, hmove⟩ | ⟨hrun, hbuffer, rfl, rfl⟩ | ⟨hrun, rfl, rfl⟩ |
    ⟨hrun, hqueue, hbuffer, rfl, rfl⟩ | ⟨hstart, rfl⟩ | ⟨f, last, hrun, hflush⟩ := step_cases h
  · have htakes (r : LogRecord) (hr : w.Takes r) := takes_drain hqueue hr
    rcases hmove with ⟨hrun, rfl⟩ | ⟨hrun, rfl⟩
    · have hrun' : ({ w with queue }.drain msg).run = .receiving := (run_drain _ _).trans hrun
      rcases receive_eq env { w with queue } msg with heq | heq
      · rw [heq]
        refine ⟨fun r hr => .inl (htakes r hr), ?_, fun _ _ => ?_, fun _ => ?_, by simp⟩
        · exact ownsTaken_of_run (by simp [hrun'])
        · rw [hrun']
          rfl
        · rw [hrun']
          exact .inl rfl
      · rw [heq]
        refine ⟨fun r hr => .inl (takes_startFlush ?_ (by simp) (htakes r hr)),
          ownsTaken_startFlush _ _, fun _ _ => rfl, fun _ => .inl rfl, by simp⟩
        rw [hrun']
        rfl
    · have hrun' : ({ w with queue }.drain msg).run = .draining := (run_drain _ _).trans hrun
      refine ⟨fun r hr => .inl (htakes r hr), ?_, fun hclosed => ?_, fun hrouted => ?_, by simp⟩
      · exact ownsTaken_of_run (by simp [hrun'])
      · rw [hrun] at hclosed
        cases hclosed
      · grind
  · refine ⟨fun r hr => Or.inl ?_, ownsTaken_of_run (by simp), fun _ _ => rfl, fun _ => .inr rfl, by simp⟩
    rcases hr with ⟨-, hr⟩ | hr | hr
    · exact .inl ⟨rfl, hr⟩
    · exact .inr (.inl hr)
    · rw [hrun] at hr
      cases hr
  · refine ⟨fun r hr => Or.inl ?_, ownsTaken_of_run (by simp), fun _ hclosing => ?_,
      fun hrouted => ?_, by simp⟩
    · rcases hr with ⟨-, hr⟩ | hr | hr
      · exact .inl ⟨rfl, hr⟩
      · exact .inr (.inl hr)
      · rw [hrun] at hr
        cases hr
    · rw [hrun] at hclosing
      cases hclosing
    · rw [hrun] at hrouted
      cases hrouted
  · refine ⟨fun r hr => ?_, ownsTaken_of_run (by simp), fun hclosed => ?_, fun hrouted => ?_, by simp⟩
    · grind [Run.owned, Takes]
    · rw [hrun] at hclosed
      cases hclosed
    · rw [hrun] at hrouted
      cases hrouted
  · rcases hstart with ⟨hrun, rfl⟩ | ⟨hrun, hqueue, rfl⟩
    all_goals have howned : w.run.owned = [] := by rw [hrun]; rfl
    · exact ⟨fun r hr => .inl (takes_startFlush howned (by simp) hr), ownsTaken_startFlush _ _,
        fun _ _ => rfl, fun _ => .inl rfl, by simp⟩
    · refine ⟨fun r hr => .inl (takes_startFlush howned (fun _ => hqueue) hr),
        ownsTaken_startFlush _ _, fun hclosed => ?_, fun hrouted => ?_, by simp⟩
      · rw [hrun] at hclosed
        cases hclosed
      · rw [hrun] at hrouted
        cases hrouted
  · exact .of_flush hrun (flushGoesOn hrun (howns f last hrun) hflush)

end Worker

/-! ## Senders and their workers -/

def SendStage.worker? : SendStage M → Option ℕ
  | .send _ i | .permit _ i => some i
  | .info | .workerFor _ | .waitCreate _ | .resolve _ | .spawn _ _ => none

namespace Hub

def Routed (hub : Hub M) : Prop :=
  ∀ name i, hub.route name = some i → ∃ w, hub.workers[i]? = some w ∧ w.run.routed = true

def OpenAt (hub : Hub M) (i : ℕ) : Prop :=
  ∃ w, hub.workers[i]? = some w ∧ w.run.closed = false

def Takes (hub : Hub M) (r : LogRecord) : Prop :=
  ∃ w ∈ hub.workers, w.Takes r

variable {env : Env M} {hub hub' : Hub M} {snd : Sender M} {d : Delivery M} {blocking ok : Bool}

theorem streamInfo_route (env : Env M) (hub : Hub M) (name : String) (ok : Bool) :
    (hub.streamInfo env name ok).2.route = hub.route := by
  grind [streamInfo]

theorem getElem?_setWorker (i : ℕ) (w' : Worker M) {j : ℕ} {v : Worker M} (hv : hub.workers[j]? = some v) :
    (hub.setWorker i w').workers[j]? = some (if i = j then w' else v) := by
  grind [setWorker]

theorem getElem?_spawn (hub : Hub M) (name : String) (row : StreamRow M) :
    (hub.spawn name row).workers[hub.workers.length]? = some { name, target := row } := by
  simp [spawn]

variable {i : ℕ} {w : Worker M}

theorem Delivers.channel (h : Delivers env blocking ok hub snd d hub') (hw : hub.workers[i]? = some w) :
    ∃ msgs permits,
      hub'.workers[i]? = some { w with queue := w.queue ++ msgs, permits } := by
  have hworkers := hub.streamInfo_workers env snd.record.item.stream ok
  have hsame : hub.workers[i]? = some { w with queue := w.queue ++ [], permits := w.permits } := by
    rw [hw, append_nil]
  have hset {j : ℕ} {v : Worker M} (hv : hub.workers[j]? = some v) (new : List Msg) (permits : ℕ) :
      ∃ msgs permits', (hub.setWorker j { v with queue := v.queue ++ new, permits }).workers[i]?
        = some { w with queue := w.queue ++ msgs, permits := permits' } := by
    rw [getElem?_setWorker j _ hw]
    split_ifs with hji
    · grind
    · grind
  cases h with
  | info _ hinfo | infoFails _ hinfo =>
    grind
  | spawns =>
    grind [spawn]
  | @reserves _ j v _ hv =>
    have hres := hset hv [] (v.permits + 1)
    rwa [append_nil] at hres
  | fills _ hv => exact hset hv [_] _
  | found | missing | locks | resolves | resolveFails | closed | retries | saturated =>
    exact ⟨[], w.permits, hsame⟩

theorem Delivers.worker (h : Delivers env blocking ok hub snd d hub') (hw : hub.workers[i]? = some w) :
    ∃ w', hub'.workers[i]? = some w' ∧ w'.run = w.run ∧
      w'.buffer = w.buffer ∧ w.queue ⊆ w'.queue := by
  obtain ⟨msgs, permits, hw'⟩ := h.channel hw
  grind

theorem Delivers.openAt (h : Delivers env blocking ok hub snd d hub') (hopen : hub.OpenAt i) :
    hub'.OpenAt i := by
  obtain ⟨w, hw, hclosed⟩ := hopen
  obtain ⟨w', hw', hrun, -, -⟩ := h.worker hw
  exact ⟨w', hw', by rwa [hrun]⟩

theorem Delivers.takes (h : Delivers env blocking ok hub snd d hub') {r : LogRecord}
    (htakes : hub.Takes r) : hub'.Takes r := by
  obtain ⟨w, hmem, hr⟩ := htakes
  obtain ⟨i, hi⟩ := mem_iff_getElem?.mp hmem
  obtain ⟨w', hw', hrun, hbuffer, hqueue⟩ := h.worker hi
  refine ⟨w', mem_of_getElem? hw', ?_⟩
  rcases hr with ⟨hdrained, hr⟩ | hr | hr
  · obtain ⟨msg, hmsg, hrecord⟩ := mem_filterMap.mp hr
    exact .inl ⟨by rwa [hrun], mem_filterMap.mpr ⟨msg, hqueue hmsg, hrecord⟩⟩
  · exact .inr (.inl (by rwa [hbuffer]))
  · exact .inr (.inr (by rwa [hrun]))

theorem Delivers.routed (h : Delivers env blocking ok hub snd d hub') (hrouted : hub.Routed) :
    hub'.Routed := by
  -- the workers that were in the map are as they were
  have hkeeps (hroute : hub'.route = hub.route) : hub'.Routed := by
    intro name i hi
    rw [hroute] at hi
    obtain ⟨w, hw, hrun⟩ := hrouted name i hi
    obtain ⟨w', hw', hrun', -, -⟩ := h.worker hw
    exact ⟨w', hw', by rwa [hrun']⟩
  have hroute := streamInfo_route env hub snd.record.item.stream ok
  cases h with
  | info _ hinfo | infoFails _ hinfo =>
    grind
  | @spawns id row hstage =>
    intro name i hi
    simp only [spawn] at hi
    by_cases hname : name = snd.record.item.stream
    · subst hname
      rw [Function.update_self] at hi
      cases hi
      exact ⟨_, hub.getElem?_spawn _ row, rfl⟩
    · rw [Function.update_of_ne hname] at hi
      obtain ⟨w, hw, hrun⟩ := hrouted name i hi
      obtain ⟨w', hw', hrun', -, -⟩ :=
        (Delivers.spawns hstage : Delivers env blocking ok hub snd _ _).worker hw
      exact ⟨w', hw', by rwa [hrun']⟩
  | reserves | fills
  | found | missing | locks | resolves | resolveFails | closed | retries | saturated => exact hkeeps rfl

def SenderOpen (hub : Hub M) (snd : Sender M) : Prop :=
  ∀ i ∈ snd.stage.worker?, hub.OpenAt i

theorem Delivers.senderOpen (h : Delivers env blocking ok hub snd d hub') (hrouted : hub.Routed)
    (hopen : hub.SenderOpen snd) :
    d ≠ .closed ∧ (∀ snd', d = .goes snd' → hub'.SenderOpen snd') ∧
      (d = .sent → hub'.Takes snd.record) := by
  have hkeeps := fun i => h.openAt (i := i)
  cases h with
  | closed hstage hw hclosed =>
    obtain ⟨w', hw', hopened⟩ := hopen _ (by rw [hstage]; rfl)
    grind
  | @found id i hstage hroute =>
    refine ⟨by simp, ?_, by simp⟩
    rintro _ ⟨⟩ _ ⟨⟩
    obtain ⟨w, hw, hrun⟩ := hrouted _ i hroute
    exact ⟨w, hw, Run.closed_of_routed hrun⟩
  | @spawns id row hstage =>
    refine ⟨by simp, ?_, by simp⟩
    rintro _ ⟨⟩ _ ⟨⟩
    exact ⟨_, hub.getElem?_spawn _ row, rfl⟩
  | @reserves id i w hstage hw hopened =>
    refine ⟨by simp, ?_, by simp⟩
    rintro _ ⟨⟩ _ ⟨⟩
    exact hkeeps i (hopen i (by rw [hstage]; rfl))
  | @fills id i w hstage hw =>
    obtain ⟨w', hw', hopened⟩ := hopen i (by rw [hstage]; rfl)
    rw [hw] at hw'
    cases hw'
    refine ⟨by simp, by simp, fun _ => ⟨_, mem_of_getElem? (getElem?_setWorker i _ hw), ?_⟩⟩
    rw [if_pos rfl]
    refine .inl ⟨Run.drained_of_closed hopened, ?_⟩
    rw [filterMap_append]
    exact mem_append_right _ mem_cons_self
  | info | missing | locks | resolves | retries =>
    refine ⟨by simp, ?_, by simp⟩
    rintro _ ⟨⟩ _ ⟨⟩
  | infoFails | resolveFails | saturated => exact ⟨by simp, by simp, by simp⟩

theorem Delivers.not_saturated (h : Delivers env true ok hub snd d hub') : d ≠ .saturated := by
  rintro rfl
  cases h with
  | saturated _ hblocking => cases hblocking

theorem ok_of_streamInfo {name : String} (h : hub.streamInfo env name ok = (none, hub')) :
    ok = false := by
  grind [streamInfo]

theorem Delivers.ok_of_failed (h : Delivers env blocking ok hub snd .failed hub') : ok = false := by
  cases h with
  | infoFails _ hinfo => exact ok_of_streamInfo hinfo
  | resolveFails _ hok => exact hok

end Hub

/-! ## Replay's records and those of requests -/

/-- Replay's records were stored before the node started, those of requests after that. -/
structure Apart (s : State M) (bound : ℕ) : Prop where
  numbered : Numbered s.book
  bound_le : bound ≤ s.book.nextRid
  yielded : ∀ r ∈ s.replay.yielded, r.rid < bound
  ahead : ∀ r ∈ s.replay.records, r.rid < bound
  requests : ∀ req ∈ s.requests, ∀ r ∈ req.records, bound ≤ r.rid

namespace Apart

variable {env : Env M} {s s' : State M} {bound : ℕ}

theorem of_book (h : Numbered s.book) (hstored : s'.book.stored = s.book.stored)
    (hnext : s'.book.nextRid = s.book.nextRid) : Numbered s'.book :=
  ⟨by rw [hstored]; exact h.nodup, by rw [hstored, hnext]; exact h.lt⟩

theorem restart (h : Apart s bound) : Apart s.restart s.book.nextRid where
  numbered := h.numbered.restart
  bound_le := le_rfl
  yielded r hr := by cases hr
  ahead r hr := by
    exact h.numbered.lt r (mem_of_mem_filter hr)
  requests req hreq := by cases hreq

theorem init : Apart (init : State M) 0 where
  numbered := .empty
  bound_le := le_rfl
  yielded r hr := by cases hr
  ahead r hr := by cases hr
  requests req hreq := by cases hreq

theorem step (h : Apart s bound) {a : Action M} (hstep : Moves env s a s') (hcrash : a ≠ .crash) :
    Apart s' bound := by
  cases hstep with
  | outside | flushStream => exact ⟨h.numbered, h.bound_le, h.yielded, h.ahead, h.requests⟩
  | append hb =>
    have happended := Appended.of_appendPlans hb
    refine ⟨h.numbered.append happended, ?_, h.yielded, h.ahead, fun req hreq r hr => ?_⟩
    · exact h.bound_le.trans (happended.nextRid ▸ Nat.le_add_right ..)
    · rcases mem_append.mp hreq with hreq | hreq
      · exact h.requests req hreq r hr
      · rw [mem_singleton.mp hreq] at hr
        exact h.bound_le.trans (Numbered.new happended r hr).1
  | appendFails hb =>
    have happended := Appended.of_appendRoutes hb
    exact ⟨h.numbered.append happended,
      h.bound_le.trans (happended.nextRid ▸ Nat.le_add_right ..), h.yielded, h.ahead, h.requests⟩
  | @request j ok r s' hj hserves =>
    obtain ⟨r', entries, hmove⟩ := hserves.move
    refine ⟨of_book h.numbered hmove.stored hmove.nextRid, hmove.nextRid ▸ h.bound_le, ?_, ?_, ?_⟩
    · rw [hmove.replay]
      exact h.yielded
    · rw [hmove.replay]
      exact h.ahead
    · intro req hreq x hx
      rw [hmove.requests] at hreq
      rcases mem_or_eq_of_mem_set hreq with hreq | rfl
      · exact h.requests req hreq x hx
      · exact h.requests r (mem_of_getElem? hj) x (hmove.records hx)
  | replay _ hreplays =>
    obtain ⟨entries, hmove⟩ := hreplays.move
    refine ⟨of_book h.numbered hmove.stored hmove.nextRid, hmove.nextRid ▸ h.bound_le,
      fun r hr => ?_, fun r hr => h.ahead r (hmove.records hr), by rw [hmove.requests]; exact h.requests⟩
    rcases hmove.yielded r hr with hr | hr
    · exact h.yielded r hr
    · exact h.ahead r hr
  | worker =>
    refine ⟨of_book h.numbered ?_ ?_, ?_, ?_, ?_, ?_⟩
    · exact apply_stored ..
    · exact apply_nextRid ..
    · rw [apply_nextRid]
      exact h.bound_le
    · rw [apply_replay]
      exact h.yielded
    · rw [apply_replay]
      exact h.ahead
    · rw [apply_requests]
      exact h.requests
  | unlink =>
    exact ⟨⟨h.numbered.nodup, h.numbered.lt⟩, h.bound_le, h.yielded, h.ahead, h.requests⟩
  | crash => exact absurd rfl hcrash

end Apart

/-! ## The records replay has yielded -/

/-- Somebody has the record, or had it: replay, a worker that will still see to it, a worker that has
lost it with a torn-down build, or whoever has confirmed it. -/
def State.Sees (s : State M) (r : LogRecord) : Prop :=
  (∃ stage ∈ s.replay.current, stage.record = r) ∨ s.hub.Takes r ∨ r ∈ s.lost ∨
    r ∈ s.settled.map Prod.fst

/-- **The condition**: a worker does not close its channel while replay has a sender of it, and no call
fails while replay has a record that is JSON. -/
def HandoffSafe (env : Env M) (s : State M) : Action M → Prop
  | .worker i .tick => ∀ w ∈ s.hub.workers[i]?, w.run.closing = true →
      ∀ snd ∈ s.replay.sender?, snd.stage.worker? ≠ some i
  | .replay false => ∀ stage ∈ s.replay.current, env.parses stage.record.item.doc = false
  | _ => True

instance (env : Env M) (s : State M) (a : Action M) : Decidable (HandoffSafe env s a) := by
  induction a using Action.casesOn with
  | worker _ b => induction b using Input.casesOn <;> dsimp only [HandoffSafe] <;> infer_instance
  | replay ok => induction ok using Bool.casesOn <;> dsimp only [HandoffSafe] <;> infer_instance
  | _ => dsimp only [HandoffSafe]; infer_instance

/-- The workers of replay's sender and of the map are open, and whatever replay has yielded is seen
to. -/
structure Handing (env : Env M) (s : State M) : Prop where
  routed : s.hub.Routed
  sender : ∀ snd ∈ s.replay.sender?, s.hub.SenderOpen snd
  handed : ∀ r ∈ s.replay.yielded, env.parses r.item.doc = true → s.Sees r
  running : s.replay.stopped = true → ∀ stage ∈ s.replay.current,
    env.parses stage.record.item.doc = false

namespace Handing

variable {env : Env M} {s s' : State M}

theorem setReplay (h : Handing env s) {replay : Replay M}
    (hsender : ∀ snd ∈ replay.sender?, s.hub.SenderOpen snd)
    (hcurrent : ∀ stage ∈ s.replay.current, env.parses stage.record.item.doc = true →
      ∃ stage' ∈ replay.current, stage'.record = stage.record) (hyielded : ∀ r ∈ replay.yielded,
      r ∈ s.replay.yielded ∨ ∃ stage ∈ replay.current, stage.record = r)
    (hrunning : replay.stopped = true → ∀ stage ∈ replay.current,
      env.parses stage.record.item.doc = false) : Handing env (s.setReplay replay) where
  routed := h.routed
  sender := hsender
  handed r hr hparses := by
    rcases hyielded r hr with hr | hr
    · rcases h.handed r hr hparses with ⟨stage, hstage, rfl⟩ | hrest
      · exact .inl (hcurrent stage hstage hparses)
      · exact .inr hrest
    · exact .inl hr
  running := hrunning

theorem delivers (h : Handing env s) {blocking ok : Bool} {snd : Sender M} {d : Delivery M}
    {hub : Hub M} (hd : Delivers env blocking ok s.hub snd d hub) :
    Handing env { s with hub } where
  routed := hd.routed h.routed
  sender snd' hsnd' i hi := hd.openAt (h.sender snd' hsnd' i hi)
  handed r hr hparses := by
    rcases h.handed r hr hparses with hstage | htakes | hrest
    · exact .inl hstage
    · exact .inr (.inl (hd.takes htakes))
    · exact .inr (.inr hrest)
  running := h.running

theorem of_hub (h : Handing env s) (hworkers : s'.hub.workers = s.hub.workers)
    (hroute : s'.hub.route = s.hub.route) (hreplay : s'.replay = s.replay) (hlost : s.lost ⊆ s'.lost)
    (hsettled : s.settled ⊆ s'.settled) : Handing env s' where
  routed name i hi := by
    rw [hroute] at hi
    rw [hworkers]
    exact h.routed name i hi
  sender snd hsnd i hi := by
    rw [hreplay] at hsnd
    obtain ⟨w, hw, hopen⟩ := h.sender snd hsnd i hi
    exact ⟨w, by rwa [hworkers], hopen⟩
  handed r hr hparses := by
    rw [hreplay] at hr
    rcases h.handed r hr hparses with hstage | ⟨w, hw, htakes⟩ | hr | hr
    · exact .inl (by rwa [hreplay])
    · exact .inr (.inl ⟨w, by rwa [hworkers], htakes⟩)
    · exact .inr (.inr (.inl (hlost hr)))
    · exact .inr (.inr (.inr (map_subset _ hsettled hr)))
  running := by
    rw [hreplay]
    exact h.running

theorem serves (h : Handing env s) {j : ℕ} {r : Request M} (hserves : Serves env s j r s') :
    Handing env s' := by
  cases hserves with
  | plan | route | answer | issue =>
    exact h.of_hub rfl rfl rfl (refl _) (refl _)
  | @deliver work snd infoId ok d hub hwork hsender hd =>
    have h' := h.delivers hd
    cases d with
    | goes | sent => exact h'.of_hub rfl rfl rfl (refl _) (refl _)
    | saturated | closed | failed =>
      exact h'.of_hub rfl rfl rfl (refl _) (subset_append_left ..)

theorem stop (h : Handing env s)
    (hrunning : ∀ stage ∈ s.replay.current, env.parses stage.record.item.doc = false) :
    Handing env s.stop :=
  h.setReplay h.sender (fun stage hstage _ => ⟨stage, hstage, rfl⟩) (fun _ => Or.inl) fun _ => hrunning

theorem drop (h : Handing env s) (record : LogRecord)
    (hcurrent : ∀ stage ∈ s.replay.current, stage.record = record)
    (hsees : env.parses record.item.doc = true → s.hub.Takes record) :
    Handing env (s.setReplay { s.replay with current := none }) where
  routed := h.routed
  sender snd hsnd := by cases hsnd
  handed r hr hparses := by
    rcases h.handed r hr hparses with ⟨stage, hstage, rfl⟩ | hrest
    · rw [hcurrent stage hstage] at hparses ⊢
      exact .inr (.inl (hsees hparses))
    · exact .inr hrest
  running _ stage hstage := by cases hstage

theorem replays (h : Handing env s) {ok : Bool} (hcond : HandoffSafe env s (.replay ok))
    (hstopped : s.replay.stopped = false) (hreplays : Replays env ok s s') : Handing env s' := by
  have hfails (hok : ok = false) : ∀ stage ∈ s.replay.current,
      env.parses stage.record.item.doc = false := by
    subst hok
    exact hcond
  cases hreplays with
  | stops hcurrent => exact h.stop (by simp [hcurrent])
  | @yields r ahead hcurrent hahead =>
    refine h.setReplay (fun snd hsnd => ?_) (by simp [hcurrent]) (fun r' hr' => ?_) (by simp [hstopped])
    · simp only [sender?] at hsnd
      cases htomb : r.item.tombstone <;> simp [htomb] at hsnd
    · rcases mem_append.mp hr' with hr' | hr'
      · exact .inl hr'
      · rw [mem_singleton.mp hr']
        refine .inr ⟨_, rfl, ?_⟩
        split_ifs <;> rfl
  | issues hcurrent =>
    have h' : Handing env (s.issue s.replay.tombs) :=
      h.of_hub rfl rfl rfl (refl _) (refl _)
    exact h'.setReplay (by simp [sender?, hcurrent]) (by simp [issue, hcurrent])
      (fun _ => Or.inl) (by simp [hstopped])
  | @tomb r hcurrent =>
    have hworkers := s.hub.streamInfo_workers env r.item.stream ok
    have hroute := s.hub.streamInfo_route env r.item.stream ok
    unfold replayTomb
    rcases hinfo : s.hub.streamInfo env r.item.stream ok with ⟨_ | id, hub⟩
    all_goals
      rw [hinfo] at hworkers hroute
      have h' : Handing env { s with hub } :=
        h.of_hub hworkers hroute rfl (refl _) (refl _)
    · exact h'.stop (hfails (ok_of_streamInfo hinfo))
    · refine Handing.setReplay h' (fun snd hsnd => ?_) ?_ (fun _ => Or.inl) (by simp [hstopped])
      · split_ifs at hsnd <;> cases hsnd
      · intro stage hstage _
        rw [hcurrent] at hstage
        cases hstage
        refine ⟨_, rfl, ?_⟩
        split_ifs <;> rfl
  | @upsert r hcurrent =>
    unfold replayUpsert
    split_ifs with hok
    · have h' : Handing env (s.issue s.replay.tombs) :=
        h.of_hub rfl rfl rfl (refl _) (refl _)
      refine h'.setReplay (by simp [sender?]) ?_ (fun _ => Or.inl) (by simp [hstopped])
      rintro stage hstage -
      rw [issue, hcurrent] at hstage
      cases hstage
      exact ⟨_, rfl, rfl⟩
    · exact h.stop (hfails (Bool.eq_false_iff.mpr hok))
  | @check r hcurrent =>
    unfold replayCheck
    split_ifs with hparses
    · refine h.setReplay ?_ ?_ (fun _ => Or.inl) (by simp [hstopped])
      · rintro _ ⟨⟩ _ ⟨⟩
      · rintro stage hstage -
        rw [hcurrent] at hstage
        cases hstage
        exact ⟨_, rfl, rfl⟩
    · have h' := h.drop r (by simp [hcurrent, ReplayStage.record]) fun h => absurd h hparses
      exact h'.of_hub rfl rfl rfl (refl _) (subset_append_left ..)
  | @deliver snd d hub hcurrent hd =>
    have h' := h.delivers hd
    have hopen := h.sender snd (by simp [sender?, hcurrent])
    obtain ⟨hclosed, hgoes, hsent⟩ := hd.senderOpen h.routed hopen
    have hrecord : ∀ stage ∈ s.replay.current, stage.record = snd.record := by
      simp [hcurrent, ReplayStage.record]
    cases d with
    | goes snd' =>
      refine h'.setReplay ?_ ?_ (fun _ => Or.inl) (by simp [hstopped])
      · rintro _ ⟨⟩
        exact hgoes snd' rfl
      · intro stage hstage _
        exact ⟨_, rfl, hd.gives.1.trans (hrecord stage hstage).symm⟩
    | sent => exact h'.drop snd.record hrecord fun _ => hsent rfl
    | saturated => exact absurd rfl hd.not_saturated
    | closed => exact absurd rfl hclosed
    | failed => exact h'.stop (hfails hd.ok_of_failed)

variable {w w' : Worker M} {eff : Effect M} {input : Input}

theorem setWorker (h : Handing env s) {i : ℕ} (w' : Worker M) (hi : s.hub.workers[i]? = some w)
    (hworkers : s'.hub.workers = (s.hub.setWorker i w').workers)
    (hroute : ∀ name j, s'.hub.route name = some j → s.hub.route name = some j)
    (hreplay : s'.replay = s.replay) (hlost : s.lost ⊆ s'.lost) (hsettled : s.settled ⊆ s'.settled)
    (htakes : ∀ r, w.Takes r → w'.Takes r ∨ r ∈ s'.lost ∨ r ∈ s'.settled.map Prod.fst)
    (hopen : ∀ snd ∈ s.replay.sender?, snd.stage.worker? = some i → w.run.closed = false →
      w'.run.closed = false)
    (hrouted : ∀ name, s'.hub.route name = some i → w.run.routed = true → w'.run.routed = true) :
    Handing env s' where
  routed name j hj := by
    obtain ⟨v, hv, hrun⟩ := h.routed name j (hroute name j hj)
    rw [hworkers]
    refine ⟨_, getElem?_setWorker i w' hv, ?_⟩
    split_ifs with hij
    · subst hij
      rw [hi] at hv
      cases hv
      exact hrouted name hj hrun
    · exact hrun
  sender snd hsnd j hj := by
    rw [hreplay] at hsnd
    obtain ⟨v, hv, hclosed⟩ := h.sender snd hsnd j hj
    rw [OpenAt, hworkers]
    refine ⟨_, getElem?_setWorker i w' hv, ?_⟩
    split_ifs with hij
    · subst hij
      rw [hi] at hv
      cases hv
      exact hopen snd hsnd hj hclosed
    · exact hclosed
  handed r hr hparses := by
    rw [hreplay] at hr
    rcases h.handed r hr hparses with hstage | ⟨v, hv, hr⟩ | hr | hr
    · exact .inl (by rwa [hreplay])
    · obtain ⟨j, hj⟩ := mem_iff_getElem?.mp hv
      have hj' := getElem?_setWorker i w' hj
      rw [← hworkers] at hj'
      by_cases hij : i = j
      · subst hij
        rw [hi] at hj
        cases hj
        rw [if_pos rfl] at hj'
        rcases htakes r hr with hr | hr | hr
        · exact .inr (.inl ⟨w', mem_of_getElem? hj', hr⟩)
        · exact .inr (.inr (.inl hr))
        · exact .inr (.inr (.inr hr))
      · rw [if_neg hij] at hj'
        exact .inr (.inl ⟨v, mem_of_getElem? hj', hr⟩)
    · exact .inr (.inr (.inl (hlost hr)))
    · exact .inr (.inr (.inr (map_subset _ hsettled hr)))
  running := by
    rw [hreplay]
    exact h.running

theorem input_of_closing {row : Option (StreamRow M)} (hclosing : w.run.closing = true)
    (h : w.step env row input = some (w', eff)) : input = .tick := by
  unfold Worker.step at h
  split at h
  · next hrun =>
      rw [hrun] at hclosing
      cases hclosing
  · next hrun =>
      rw [hrun] at hclosing
      cases hclosing
  · rfl
  · rfl
  · next hrun =>
      rw [hrun] at hclosing
      cases hclosing
  · cases h

theorem workerStep (h : Handing env s) (hrows : RowsInv env False s)
    (howns : ∀ w ∈ s.hub.workers, w.OwnsTaken) {i : ℕ} (hcond : HandoffSafe env s (.worker i input))
    (hi : s.hub.workers[i]? = some w)
    (hstep : w.step env (s.hub.store.streams w.name) input = some (w', eff)) :
    Handing env ({ s with hub := s.hub.setWorker i w' }.apply w.name w.target.id eff) := by
  have hgives := Worker.takes_step (howns w (mem_of_getElem? hi)) hstep
  refine h.setWorker w' hi ?_ (fun name j hj => ?_) ?_ ?_ ?_ (fun r hr => ?_)
    (fun snd hsnd hheld hclosed => ?_) fun name hname hrouted => ?_
  · rw [apply_hub]
  · rw [apply_hub] at hj
    exact RowsInv.update_none hj
  · exact apply_replay ..
  · grind [apply_lost]
  · grind [apply_settled]
  · rw [apply_lost, apply_settled, map_append]
    rcases hgives.takes r hr with hr | hr | hr
    · exact .inl hr
    · grind
    · exact .inr (.inr (mem_append_right _ hr))
  · refine hgives.opened hclosed (Bool.eq_false_iff.mpr fun hclosing => ?_)
    have hinput := input_of_closing hclosing hstep
    subst hinput
    exact hcond w hi hclosing snd hsnd hheld
  · rcases hgives.routed hrouted with hrouted | hunpublish
    · exact hrouted
    · -- the map has no sender of this worker any more
      rw [apply_hub] at hname
      simp only [hunpublish, if_true] at hname
      have hold : s.hub.route name = some i :=
        RowsInv.update_none (b := true) (by simpa [Hub.setWorker] using hname)
      have hnamed := hrows.hub.route name i hold
      grind [Hub.nameOf]

theorem step (h : Handing env s) (hrows : RowsInv env False s)
    (howns : ∀ w ∈ s.hub.workers, w.OwnsTaken) {a : Action M} (hcond : HandoffSafe env s a)
    (hstep : Moves env s a s') : Handing env s' := by
  cases hstep with
  | outside | append | unlink =>
    exact h.of_hub rfl rfl rfl (refl _) (refl _)
  | appendFails =>
    exact h.of_hub rfl rfl rfl (subset_append_left ..) (refl _)
  | request _ hserves => exact h.serves hserves
  | replay hstopped hreplays => exact h.replays hcond hstopped hreplays
  | worker hi hworker => exact h.workerStep hrows howns hcond hi hworker
  | @flushStream i w hi =>
    refine h.setWorker { w with queue := w.queue ++ [.flush] } hi rfl (fun _ _ h => h) rfl
      (refl _) (refl _) (fun r hr => Or.inl ?_) (fun _ _ _ hclosed => hclosed)
      fun _ _ hrouted => hrouted
    rcases hr with ⟨hdrained, hr⟩ | hr
    · refine .inl ⟨hdrained, ?_⟩
      grind
    · exact .inr hr
  | crash =>
    refine ⟨?_, ?_, ?_, ?_⟩ <;> simp [restart, Routed, sender?]

theorem init (env : Env M) : Handing env (State.init : State M) := by
  refine ⟨?_, ?_, ?_, ?_⟩ <;> simp [State.init, Routed, sender?]

end Handing

/-! ## Who confirms what -/

/-- A record is confirmed by a worker, or it is a request's and was refused, or it is not JSON. -/
def FateOk (env : Env M) (bound : ℕ) (e : LogRecord × Fate M) : Prop :=
  e.2.streamId?.isSome = true ∨ (e.2 = .rejected ∧ bound ≤ e.1.rid) ∨
    (e.2 = .corrupt ∧ env.parses e.1.item.doc = false)

structure HandInv (env : Env M) (s : State M) : Prop where
  rows : RowsInv env False s
  owns : ∀ w ∈ s.hub.workers, w.OwnsTaken
  handing : Handing env s
  fates : ∃ bound, Apart s bound ∧ ∀ e ∈ s.settled, FateOk env bound e

theorem Handing.settled_replays {ok : Bool} (h : Handing env s) (hreplays : Replays env ok s s') :
    ∀ e ∈ s'.settled,
      e ∈ s.settled ∨ (e.2 = .corrupt ∧ env.parses e.1.item.doc = false) := by
  cases hreplays with
  | stops | yields | issues => exact fun _ => Or.inl
  | @tomb r =>
    unfold replayTomb
    rcases s.hub.streamInfo env r.item.stream ok with ⟨_ | id, hub⟩ <;> exact fun _ => Or.inl
  | upsert =>
    unfold replayUpsert
    split_ifs <;> exact fun _ => Or.inl
  | check =>
    unfold replayCheck
    split_ifs with hparses
    · exact fun _ => Or.inl
    · intro e he
      rcases mem_append.mp he with he | he
      · exact .inl he
      · grind
  | @deliver snd d hub hcurrent hd =>
    have hopen := h.sender snd (by simp [sender?, hcurrent])
    cases d with
    | goes | sent | failed => exact fun _ => Or.inl
    | saturated => exact absurd rfl hd.not_saturated
    | closed => exact absurd rfl (hd.senderOpen h.routed hopen).1

theorem HandInv.fates_step (h : HandInv env s) (hstep : Moves env s a s') :
    ∃ bound, Apart s' bound ∧ ∀ e ∈ s'.settled, FateOk env bound e := by
  obtain ⟨bound, hapart, hfates⟩ := h.fates
  by_cases hcrash : a = .crash
  · subst hcrash
    cases hstep with
    | outside _ _ _ hcrash => exact absurd rfl hcrash
    | crash => exact ⟨_, hapart.restart, fun e he => by cases he⟩
  refine ⟨bound, hapart.step hstep hcrash, ?_⟩
  cases hstep with
  | outside | append | appendFails | flushStream | unlink => exact hfates
  | @request j ok r s' hj hserves =>
    obtain ⟨r', entries, hmove⟩ := hserves.move
    intro e he
    rw [hmove.settled] at he
    rcases mem_append.mp he with he | he
    · exact hfates e he
    · obtain ⟨hrejected, hmem⟩ := hmove.entries e he
      exact .inr (.inl ⟨hrejected, hapart.requests r (mem_of_getElem? hj) _ hmem⟩)
  | replay _ hreplays =>
    intro e he
    rcases h.handing.settled_replays hreplays e he with he | hcorrupt
    · exact hfates e he
    · exact .inr (.inr hcorrupt)
  | @worker i input w w' eff hi hworker =>
    intro e he
    rw [apply_settled] at he
    rcases mem_append.mp he with he | he
    · exact hfates e he
    · have hgives := Worker.takes_step (h.owns w (mem_of_getElem? hi)) hworker
      exact .inl (hgives.fates e he)
  | crash => exact absurd rfl hcrash

theorem HandInv.step (h : HandInv env s) (hcond : HandoffSafe env s a) (hstep : s.step env a = some s') :
    HandInv env s' := by
  have hmoves := moves_of_step hstep
  refine ⟨h.rows.step False.elim hstep, ?_, h.handing.step h.rows h.owns hcond hmoves, h.fates_step hmoves⟩
  refine step_workers ?_ ?_ h.owns ?_ hstep
  · exact fun name row => Worker.ownsTaken_of_run (by simp)
  · exact fun w queue permits hw => hw
  · intro i input w w' eff _ hi hworker
    exact (Worker.takes_step (h.owns w (mem_of_getElem? hi)) hworker).ownsTaken

theorem HandInv.init (env : Env M) : HandInv env (State.init : State M) :=
  ⟨RowsInv.init env False, by simp [State.init], Handing.init env, 0, Apart.init, by simp [State.init]⟩

/-- Every record that replay has yielded and that is JSON is in the hand of a replay that goes on, or
with a worker that will still see to it, or was lost, unconfirmed, with a torn-down build, or is
confirmed; and if it is confirmed, a worker has done so, with good reason. -/
structure HandedOver (env : Env M) (s : State M) : Prop where
  handed : ∀ r ∈ s.replay.yielded, env.parses r.item.doc = true →
    (s.replay.stopped = false ∧ ∃ stage ∈ s.replay.current, stage.record = r) ∨ s.hub.Takes r ∨
      r ∈ s.lost ∨ r ∈ s.settled.map Prod.fst
  confirmed : ∀ r ∈ s.replay.yielded, env.parses r.item.doc = true → ∀ fate, (r, fate) ∈ s.settled →
    fate.streamId?.isSome = true ∧ Justified env False s.hub.store r fate

theorem HandInv.handedOver (h : HandInv env s) : HandedOver env s where
  handed r hr hparses := by
    rcases h.handing.handed r hr hparses with ⟨stage, hstage, rfl⟩ | hrest
    · refine .inl ⟨Bool.eq_false_iff.mpr fun hstopped => ?_, stage, hstage, rfl⟩
      rw [h.handing.running hstopped stage hstage] at hparses
      cases hparses
    · exact .inr hrest
  confirmed r hr hparses fate hfate := by
    obtain ⟨bound, hapart, hfates⟩ := h.fates
    refine ⟨?_, h.rows.settled _ hfate⟩
    rcases hfates _ hfate with hworker | ⟨-, hrid⟩ | ⟨-, hcorrupt⟩
    · exact hworker
    · exact absurd (hapart.yielded r hr) (Nat.not_lt.mpr hrid)
    · grind

/-- Two documents are in the log when the node starts again.  The worker of the first has published
it and has nothing to do, and replay has just asked the map for the worker of the second. -/
def secondAsked : List (Action Unit) :=
  [.createStream "s" (), appendDoc false "a", appendDoc false "b", .crash] ++
    List.replicate 9 (.replay true) ++ [.worker 0 .recv, .worker 0 .timeout,
      .worker 0 (.lookup true), .worker 0 .tick, .worker 0 (.build .ok), .worker 0 .tick] ++
    List.replicate 4 (.replay true)

/-- The record is in the channel before the worker closes it, and is drained and published. -/
def drainedInTime : List (Action Unit) :=
  secondAsked ++ [.worker 0 .timeout, .replay true, .replay true] ++
    List.replicate 3 (.worker 0 .tick) ++ [.worker 0 (.lookup true), .worker 0 .tick,
      .worker 0 (.build .ok), .worker 0 .tick]

end RSearch.Pipeline
