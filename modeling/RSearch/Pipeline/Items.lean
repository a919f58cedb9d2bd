import RSearch.Pipeline.Retired

/-!
# The items of the workers

A **work item** is a record together with the row its write was accepted against.  It comes into being
when a sender fills a slot of a channel, and is never changed.  A worker publishes its items under the
row it is bound to; the sift before the build ensures that this is the item's row.
-/

namespace RSearch.Pipeline

open List Wal

variable {M : Type}

/-! ## A worker's items -/

namespace Worker

variable {env : Env M} {row : Option (StreamRow M)} {w w' : Worker M} {eff : Effect M} {f : Flush M}
  {last : Bool} {input : Input}

def Holds (w : Worker M) (x : WorkItem) : Prop :=
  .doc x ∈ w.queue ∨ x ∈ w.buffer ∨ x ∈ w.run.owned

def Matched (w : Worker M) : Prop :=
  ∀ f last, w.run = .flushing f last → f.stage = .build → ∀ x ∈ f.batch, x.streamId = w.target.id

structure Passes (w w' : Worker M) (input : Input) (eff : Effect M) : Prop where
  name : w'.name = w.name
  holds : ∀ x, w'.Holds x → w.Holds x
  matched : w'.Matched
  publish : ∀ x ∈ eff.publish, (∃ outcome, input = .build outcome) ∧ x ∈ w.run.owned ∧
    w'.Holds x ∧ x.streamId = w.target.id

variable {x : WorkItem}

theorem holds_records (h : w.Holds x) : x.record ∈ w.records := by
  rw [records, mem_append, mem_append]
  rcases h with h | h | h
  · exact .inl (mem_filterMap.mpr ⟨_, h, rfl⟩)
  · grind
  · grind

theorem matched_of_run (h : ∀ f last, w.run ≠ .flushing f last) : w.Matched :=
  fun f last hrun => absurd hrun (h f last)

theorem matched_of_stage (hrun : w.run = .flushing f last) (hstage : f.stage ≠ .build) : w.Matched := by
  intro f' last' hrun' hbuild
  grind

theorem holds_endFlush (h : (w.endFlush last).Holds x) : w.Holds x := by
  rcases h with h | h | h
  · exact .inl h
  · exact .inr (.inl h)
  · cases last <;> cases h

theorem matched_endFlush (w : Worker M) (last : Bool) : (w.endFlush last).Matched :=
  matched_of_run fun f last' hrun => by cases last <;> cases hrun

theorem passes_quiet (hname : w'.name = w.name) (hholds : ∀ x, w'.Holds x → w.Holds x)
    (hmatched : w'.Matched) (hpublish : eff.publish = []) : Passes w w' input eff where
  name := hname
  holds := hholds
  matched := hmatched
  publish x hx := by
    rw [hpublish] at hx
    cases hx

theorem passes_endFlush (hpublish : eff.publish = []) : Passes w (w.endFlush last) input eff :=
  passes_quiet rfl (fun _ => holds_endFlush) (w.matched_endFlush last) hpublish

theorem holds_flushing (hrun : w.run = .flushing f last) (f' : Flush M) (target : StreamRow M)
    (howned : f'.owned ⊆ f.owned) (h : { w with target, run := .flushing f' last }.Holds x) :
    w.Holds x := by
  rcases h with h | h | h
  · exact .inl h
  · exact .inr (.inl h)
  · exact .inr (.inr (by rw [hrun]; exact howned h))

theorem passes_flushing (hrun : w.run = .flushing f last) {f' : Flush M} {target : StreamRow M}
    (howned : f'.owned ⊆ f.owned)
    (hmatched : f'.stage = .build → ∀ x ∈ f'.batch, x.streamId = target.id)
    (hpublish : eff.publish = []) : Passes w { w with target, run := .flushing f' last } input eff := by
  refine passes_quiet rfl (fun x => holds_flushing hrun f' target howned) (fun g last' hrun' => ?_) hpublish
  cases hrun'
  exact hmatched

theorem passes_sift (hrun : w.run = .flushing f last) :
    Passes w (w.sift f last).1 input (w.sift f last).2 := by
  unfold sift
  split_ifs with hstale hlive
  · refine passes_flushing hrun (Subset.refl _) (fun _ x hx => ?_) rfl
    have hnone := filter_eq_nil_iff.mp hstale x hx
    simpa using hnone
  · exact passes_endFlush rfl
  · refine passes_flushing hrun (fun x hx => Flush.mem_owned (mem_of_mem_filter hx)) (fun _ x hx => ?_) rfl
    simpa using (mem_filter.mp (Flush.mem_owned hx)).2

theorem passes_build (env : Env M) (hrun : w.run = .flushing f last) (hmatched : w.Matched)
    (hstage : f.stage = .build) (outcome : BuildOutcome) :
    Passes w (w.build env f last outcome).1 (.build outcome) (w.build env f last outcome).2 := by
  have hpublishes (stage : FlushStage M) (hnot : stage ≠ .build) (outcome : BuildOutcome) :
      Passes w { w with run := .flushing { f with stage } last } (.build outcome)
        { publish := docs env w.target.mapping f } := by
    refine ⟨rfl, fun x => holds_flushing hrun { f with stage } w.target (Subset.refl _),
      matched_of_stage rfl hnot, fun x hx => ?_⟩
    have hbatch := mem_of_mem_filter hx
    have howned := Flush.mem_owned hbatch
    exact ⟨⟨outcome, rfl⟩, by rwa [hrun], .inr (.inr howned), hmatched f last hrun hstage x hbatch⟩
  cases outcome with
  | ok =>
    simp only [build]
    split_ifs
    · exact passes_endFlush rfl
    · exact hpublishes _ (by simp) _
  | committed => exact hpublishes _ (by simp) _
  | failed | aborted => exact passes_flushing hrun (Subset.refl _) (fun h => by cases h) rfl

theorem passes_flushStep (hrun : w.run = .flushing f last) (hmatched : w.Matched)
    (h : w.flushStep env row f last input = some (w', eff)) : Passes w w' input eff := by
  obtain ⟨-, answers, -, heq⟩ | ⟨-, heq⟩ | ⟨-, heq⟩ | ⟨hstage, outcome, rfl, heq⟩ | ⟨mapping, -, heq⟩ :=
    flushStep_cases h
  · have hgoes (stage : FlushStage M) (hstage : stage ≠ .build) (target : StreamRow M) (forget : Bool) :
        Passes w { w with target, run := .flushing { f with stage } last } input { forget } :=
      passes_flushing hrun (Subset.refl _) (fun hbuild => absurd hbuild hstage) rfl
    cases answers with
    | false =>
      cases heq
      exact hgoes _ (by simp) _ _
    | true => cases row <;> cases heq <;> exact hgoes _ (by simp) _ _
  · cases heq
    exact passes_endFlush rfl
  · grind [passes_sift]
  · grind [passes_build]
  · cases heq
    exact passes_endFlush rfl

theorem holds_drain {queue : List Msg} {msg : Msg} (hqueue : w.queue = msg :: queue)
    (h : ({ w with queue }.drain msg).Holds x) : w.Holds x := by
  unfold Holds at h ⊢
  rw [hqueue]
  cases msg with
  | doc y | flush =>
    grind [drain]

theorem holds_startFlush (h : (w.startFlush last).Holds x) : w.Holds x := by
  rcases h with h | h | h
  · exact .inl h
  · cases h
  · exact .inr (.inl h)

theorem matched_startFlush (w : Worker M) (last : Bool) : (w.startFlush last).Matched :=
  matched_of_stage rfl (by simp)

theorem step_passes (hmatched : w.Matched) (h : w.step env row input = some (w', eff)) :
    Passes w w' input eff := by
  have hkeeps {run : Run M} (howned : run.owned = []) (hrun : ∀ f last, run ≠ .flushing f last)
      (eff : Effect M) (hpublish : eff.publish = []) : Passes w { w with run } input eff := by
    refine passes_quiet rfl (fun x hx => ?_) (matched_of_run hrun) hpublish
    rcases hx with hx | hx | hx
    · exact .inl hx
    · exact .inr (.inl hx)
    · rw [howned] at hx
      cases hx
  obtain ⟨msg, queue, hqueue, rfl, hmove⟩ | ⟨-, -, rfl, rfl⟩ | ⟨-, rfl, rfl⟩ | ⟨-, -, -, rfl, rfl⟩ |
    ⟨hstart, rfl⟩ | ⟨f, last, hrun, hflush⟩ := step_cases h
  · have hdrain (hrun : ∀ f last, w.run ≠ .flushing f last) :
        Passes w ({ w with queue }.drain msg) input {} := by
      refine passes_quiet ?_ (fun x => holds_drain hqueue) (matched_of_run fun f last hflush => ?_) rfl
      · cases msg <;> rfl
      · grind [run_drain]
    rcases hmove with ⟨hrun, rfl⟩ | ⟨hrun, rfl⟩
    · have hpasses := hdrain (by simp [hrun])
      rcases receive_eq env { w with queue } msg with heq | heq
      · rwa [heq]
      · rw [heq]
        exact passes_quiet hpasses.name (fun x hx => hpasses.holds x (holds_startFlush hx))
          (matched_startFlush _ _) rfl
    · exact hdrain (by simp [hrun])
  · exact hkeeps rfl (by simp) _ rfl
  · exact hkeeps rfl (by simp) _ rfl
  · exact hkeeps rfl (by simp) _ rfl
  · rcases hstart with ⟨-, rfl⟩ | ⟨-, -, rfl⟩ <;>
      exact passes_quiet rfl (fun x => holds_startFlush) (matched_startFlush _ _) rfl
  · exact passes_flushStep hrun hmatched hflush

end Worker

/-! ## What the senders fill in -/

def Hub.Holds (hub : Hub M) (x : WorkItem) : Prop :=
  ∃ w ∈ hub.workers, w.Holds x

def SendStage.streamId? : SendStage M → Option ℕ
  | info => none
  | workerFor id | waitCreate id | resolve id | spawn id _ | send id _ | permit id _ => some id

section Senders

variable {env : Env M} {blocking ok : Bool} {hub hub' : Hub M} {snd : Sender M} {d : Delivery M}

variable {x : WorkItem}

theorem Hub.holds_of_workers {hub hub' : Hub M} (h : hub'.workers = hub.workers) (hx : hub'.Holds x) :
    hub.Holds x := by
  rwa [Hub.Holds, h] at hx

theorem Hub.holds_setWorker {i : ℕ} {w' : Worker M} (h : (hub.setWorker i w').Holds x) :
    hub.Holds x ∨ w'.Holds x := by
  obtain ⟨v, hv, hx⟩ := h
  rcases mem_or_eq_of_mem_set hv with hv | rfl
  · exact .inl ⟨v, hv, hx⟩
  · exact .inr hx

theorem Hub.Delivers.holds (h : Delivers env blocking ok hub snd d hub') (hx : hub'.Holds x) :
    hub.Holds x ∨ d = .sent ∧ x.record = snd.record ∧ ∃ i, snd.stage = .permit x.streamId i := by
  have hworkers := hub.streamInfo_workers env snd.record.item.stream ok
  cases h with
  | info _ hinfo | infoFails _ hinfo =>
    grind [holds_of_workers]
  | spawns =>
    obtain ⟨w, hw, hx⟩ := hx
    rcases mem_append.mp hw with hw | hw
    · exact .inl ⟨w, hw, hx⟩
    · rw [mem_singleton.mp hw] at hx
      rcases hx with hx | hx | hx <;> cases hx
  | reserves _ hw =>
    rcases Hub.holds_setWorker hx with hx | hx
    · exact .inl hx
    · exact .inl ⟨_, mem_of_getElem? hw, hx⟩
  | @fills id i w hstage hw =>
    rcases Hub.holds_setWorker hx with hx | hx | hx | hx
    · exact .inl hx
    · rcases mem_append.mp hx with hx | hx
      · exact .inl ⟨w, mem_of_getElem? hw, .inl hx⟩
      · grind
    · exact .inl ⟨w, mem_of_getElem? hw, .inr (.inl hx)⟩
    · exact .inl ⟨w, mem_of_getElem? hw, .inr (.inr hx)⟩
  | found | missing | locks | resolves | resolveFails | closed | retries | saturated => exact .inl hx

theorem Hub.Delivers.streamId {snd' : Sender M} (h : Delivers env blocking ok hub snd (.goes snd') hub') :
    snd'.record = snd.record ∧ ((snd.stage = .info ∧ ∃ id, snd'.stage = .workerFor id ∧
          hub.streamInfo env snd.record.item.stream ok = (some id, hub')) ∨
        snd'.stage.streamId? = snd.stage.streamId?) := by
  cases h with
  | info hstage hinfo => grind
  | found hstage => rcases hstage with hstage | hstage <;> exact ⟨rfl, .inr (by rw [hstage]; rfl)⟩
  | missing hstage | locks hstage | resolves hstage | spawns hstage | retries hstage | reserves hstage =>
    exact ⟨rfl, .inr (by rw [hstage]; rfl)⟩

/-! ### What the senders leave alone -/

theorem Metastore.ensureStream_history (env : Env M) (store : Metastore M) (name : String) :
    (store.ensureStream env name).2.published = store.published ∧
      (store.ensureStream env name).2.tombstones = store.tombstones := by
  unfold Metastore.ensureStream
  split <;> exact ⟨rfl, rfl⟩

theorem Hub.streamInfo_store (env : Env M) (hub : Hub M) (name : String) (ok : Bool) :
    (hub.streamInfo env name ok).2.store.published = hub.store.published ∧
      (hub.streamInfo env name ok).2.store.tombstones = hub.store.tombstones := by
  grind [Metastore.ensureStream_history, streamInfo]

theorem Hub.Delivers.store (h : Delivers env blocking ok hub snd d hub') :
    hub'.store.published = hub.store.published ∧ hub'.store.tombstones = hub.store.tombstones := by
  have hinfo := Hub.streamInfo_store env hub snd.record.item.stream ok
  cases h with
  | info _ heq | infoFails _ heq =>
    rw [heq] at hinfo
    exact hinfo
  | resolves => grind [Metastore.ensureStream_history]
  | found | missing | locks | resolveFails | spawns | closed | retries | saturated | reserves
  | fills => exact ⟨rfl, rfl⟩

end Senders

namespace State

inductive Fills (s : State M) : Action M → WorkItem → Prop
  | request {j : ℕ} {ok : Bool} {r : Request M} {work : Work M} {snd : Sender M} {infoId id i : ℕ}
      (hj : s.requests[j]? = some r) (hwork : r.work = some work)
      (hsender : work.sender = some (snd, infoId)) (hstage : snd.stage = .permit id i) :
      Fills s (.request j ok) ⟨snd.record, id⟩
  | replay {ok : Bool} {snd : Sender M} {id i : ℕ} (hcurrent : s.replay.current = some (.deliver snd))
      (hstage : snd.stage = .permit id i) : Fills s (.replay ok) ⟨snd.record, id⟩

variable {env : Env M} {s s' : State M} {a : Action M}

variable {r : Request M} {ok : Bool} {x : WorkItem}

theorem holds_of_serves {j : ℕ} (hj : s.requests[j]? = some r) (h : Serves env s j r s')
    (hx : s'.hub.Holds x) : s.hub.Holds x ∨ s.Fills (.request j ok) x := by
  cases h with
  | plan | issue | route | answer => exact .inl hx
  | deliver hwork hsender hd =>
    rw [afterDelivery_hub] at hx
    refine (hd.holds hx).imp_right ?_
    rintro ⟨-, hrecord, i, hstage⟩
    obtain ⟨record, id⟩ := x
    obtain rfl : record = _ := hrecord
    exact .request hj hwork hsender hstage

theorem holds_of_replays (h : Replays env ok s s') (hx : s'.hub.Holds x) :
    s.hub.Holds x ∨ s.Fills (.replay ok) x := by
  cases h with
  | stops | yields | issues => exact .inl hx
  | tomb => exact .inl (Hub.holds_of_workers (replayTomb_workers ..) hx)
  | upsert => exact .inl (Hub.holds_of_workers (replayUpsert_workers ..) hx)
  | check =>
    grind [replayCheck_hub]
  | deliver hcurrent hd =>
    rw [afterReplayDelivery_hub] at hx
    refine (hd.holds hx).imp_right ?_
    rintro ⟨-, hrecord, i, hstage⟩
    obtain ⟨record, id⟩ := x
    obtain rfl : record = _ := hrecord
    exact .replay hcurrent hstage

theorem matched_step (hmatched : ∀ w ∈ s.hub.workers, w.Matched) (h : s.step env a = some s') :
    ∀ w ∈ s'.hub.workers, w.Matched := by
  refine step_workers (fun name row => ?_) (fun w queue permits hw => hw) hmatched ?_ h
  · exact Worker.matched_of_run (by simp)
  · intro i input w w' eff _ hi hworker
    exact (Worker.step_passes (hmatched w (mem_of_getElem? hi)) hworker).matched

theorem matched_init : ∀ w ∈ (State.init : State M).hub.workers, w.Matched :=
  fun w hw => by cases hw

theorem holds_of_step (hmatched : ∀ w ∈ s.hub.workers, w.Matched) (h : s.step env a = some s')
    (hx : s'.hub.Holds x) : s.hub.Holds x ∨ s.Fills a x := by
  cases moves_of_step h with
  | outside | append | appendFails | unlink => exact .inl hx
  | request hj hserves => exact holds_of_serves hj hserves hx
  | replay _ hreplays => exact holds_of_replays hreplays hx
  | @worker i input w w' eff hi hworker =>
    have hmem := mem_of_getElem? hi
    rw [apply_hub] at hx
    rcases Hub.holds_setWorker hx with hx | hx
    · exact .inl hx
    · exact .inl ⟨w, hmem, (Worker.step_passes (hmatched w hmem) hworker).holds x hx⟩
  | @flushStream i w hi =>
    rcases Hub.holds_setWorker hx with hx | hx | hx
    · exact .inl hx
    · rcases mem_append.mp hx with hx | hx
      · exact .inl ⟨w, mem_of_getElem? hi, .inl hx⟩
      · cases mem_singleton.mp hx
    · exact .inl ⟨w, mem_of_getElem? hi, .inr hx⟩
  | crash =>
    obtain ⟨w, hw, -⟩ := hx
    cases hw

theorem published_of_serves {j : ℕ} (h : Serves env s j r s') :
    s'.hub.store.published = s.hub.store.published := by
  cases h with
  | plan | issue | route | answer => rfl
  | deliver _ _ hd =>
    rw [afterDelivery_hub]
    exact hd.store.1

theorem published_of_replays (h : Replays env ok s s') :
    s'.hub.store.published = s.hub.store.published := by
  cases h with
  | stops | yields | issues => rfl
  | @tomb r =>
    have hstore := (s.hub.streamInfo_store env r.item.stream ok).1
    unfold replayTomb
    rcases hinfo : s.hub.streamInfo env r.item.stream ok with ⟨_ | id, hub⟩
    all_goals
      rw [hinfo] at hstore
      exact hstore
  | upsert =>
    unfold replayUpsert
    split_ifs <;> rfl
  | check => rw [replayCheck_hub]
  | deliver _ hd =>
    rw [afterReplayDelivery_hub]
    exact hd.store.1

theorem published_of_step (hmatched : ∀ w ∈ s.hub.workers, w.Matched) (h : s.step env a = some s') :
    ∃ new : List WorkItem,
      s'.hub.store.published = s.hub.store.published ++ new.map (fun x => (x.streamId, x.record)) ∧
      ∀ x ∈ new, s'.hub.Holds x ∧ ∃ i outcome w, a = .worker i (.build outcome) ∧
        s.hub.workers[i]? = some w ∧ x ∈ w.run.owned := by
  have hnone (hpublished : s'.hub.store.published = s.hub.store.published) :
      ∃ new : List WorkItem,
        s'.hub.store.published = s.hub.store.published ++ new.map (fun x => (x.streamId, x.record)) ∧
        ∀ x ∈ new, s'.hub.Holds x ∧ ∃ i outcome w, a = .worker i (.build outcome) ∧
          s.hub.workers[i]? = some w ∧ x ∈ w.run.owned :=
    ⟨[], by grind, fun x hx => absurd hx not_mem_nil⟩
  cases moves_of_step h with
  | outside _ hpublished => exact hnone hpublished
  | append | appendFails | unlink | flushStream | crash => exact hnone rfl
  | request _ hserves => exact hnone (published_of_serves hserves)
  | replay _ hreplays => exact hnone (published_of_replays hreplays)
  | @worker i input w w' eff hi hworker =>
    have hpasses := Worker.step_passes (hmatched w (mem_of_getElem? hi)) hworker
    refine ⟨eff.publish, ?_, fun x hx => ?_⟩
    · rw [apply_hub]
      refine congrArg _ (map_congr_left fun x hx => ?_)
      rw [(hpasses.publish x hx).2.2.2]
    · obtain ⟨⟨outcome, rfl⟩, howned, hholds, -⟩ := hpasses.publish x hx
      refine ⟨?_, i, outcome, w, rfl, hi, howned⟩
      rw [apply_hub]
      exact ⟨w', mem_set (List.getElem?_eq_some_iff.mp hi).1 w', hholds⟩

end State

end RSearch.Pipeline
