import RSearch.Pipeline.Custody
import RSearch.Pipeline.Items

/-!
# A write that was refused

An item none of whose copies was taken is answered with 429 or 500, and its records are confirmed: that
is all that undoes the append.  They are still in the log, until every other record of the file is
confirmed too.
-/

namespace RSearch.Pipeline

open List Wal State

variable {M : Type}

/-! ## What a record brings to light -/

/-- The record of that number is published, or a tombstone was issued for it or waits to be. -/
def State.Shows (s : State M) (rid : ℕ) : Prop :=
  (∃ e ∈ s.hub.store.published, e.2.rid = rid) ∨ (∃ t ∈ s.hub.store.tombstones, t.cause = rid) ∨
    (∃ r ∈ s.requests, ∃ t ∈ r.tombs, t.cause = rid) ∨ ∃ t ∈ s.replay.tombs, t.cause = rid

structure State.Gone (s : State M) (rid : ℕ) : Prop where
  lt : rid < s.book.nextRid
  silent : ¬ s.Shows rid
  unheld : ∀ r ∈ s.held, r.rid ≠ rid

structure Surfaces (s s' : State M) : Prop where
  nextRid : s.book.nextRid ≤ s'.book.nextRid
  held : ∀ r ∈ s'.held, r ∈ s.held ∨ s.book.nextRid ≤ r.rid
  requests : ∀ req ∈ s'.requests, ∀ r ∈ req.records,
    (∃ req ∈ s.requests, r ∈ req.records) ∨ s.book.nextRid ≤ r.rid
  shows : ∀ rid, s'.Shows rid →
    s.Shows rid ∨ ∃ r, (r ∈ s'.replay.records ∨ r ∈ s'.hub.records) ∧ r.rid = rid

variable {s s' : State M}

theorem State.Gone.step {rid : ℕ} (h : s.Gone rid) (hstep : Surfaces s s') : s'.Gone rid := by
  have hunheld : ∀ r ∈ s'.held, r.rid ≠ rid := by
    rintro r hr rfl
    rcases hstep.held r hr with hr | hr
    · exact h.unheld r hr rfl
    · exact absurd h.lt (Nat.not_lt.mpr hr)
  refine ⟨h.lt.trans_le hstep.nextRid, fun hshows => ?_, hunheld⟩
  rcases hstep.shows rid hshows with hshows | ⟨r, hr, hrid⟩
  · exact h.silent hshows
  · grind [held]

section Steps

variable {env : Env M} {s s' : State M}

theorem Worker.publish_records {row : Option (StreamRow M)} {w w' : Worker M} {eff : Effect M}
    {input : Input} (h : w.step env row input = some (w', eff)) :
    ∀ x ∈ eff.publish, x.record ∈ w'.records := by
  have hdocs (w : Worker M) (f : Flush M) (last : Bool) (mapping : M) (stage : FlushStage M) :
      ∀ x ∈ docs env mapping f,
        x.record ∈ { w with run := .flushing { f with stage } last }.records := by
    intro x hx
    rw [records_flushing rfl]
    have howned := Flush.mem_owned (mem_of_mem_filter hx)
    grind
  obtain ⟨msg, queue, -, rfl, -⟩ | ⟨-, -, -, rfl⟩ | ⟨-, -, rfl⟩ | ⟨-, -, -, -, rfl⟩ | ⟨-, rfl⟩ |
    ⟨f, last, -, hflush⟩ := step_cases h
  all_goals try exact fun x hx => absurd hx not_mem_nil
  obtain ⟨-, answers, -, heq⟩ | ⟨-, heq⟩ | ⟨-, heq⟩ | ⟨-, outcome, -, heq⟩ | ⟨mapping, -, heq⟩ :=
    flushStep_cases hflush
  · cases answers with
    | false =>
      cases heq
      exact fun x hx => absurd hx not_mem_nil
    | true =>
      cases row <;> cases heq <;> exact fun x hx => absurd hx not_mem_nil
  · cases heq
    exact fun x hx => absurd hx not_mem_nil
  · grind [sift]
  · cases outcome with
    | ok =>
      simp only [build] at heq
      split_ifs at heq <;> cases heq
      · exact fun x hx => absurd hx not_mem_nil
      · exact hdocs w f last _ _
    | committed =>
      cases heq
      exact hdocs w f last _ _
    | failed | aborted =>
      cases heq
      exact fun x hx => absurd hx not_mem_nil
  · cases heq
    exact fun x hx => absurd hx not_mem_nil

variable {rid j : ℕ} {t : Tombstone} {r' r : Request M} {a : Action M} {work : Work M}

theorem shows_of_subset (h : s'.Shows rid) (hpublished : s'.hub.store.published ⊆ s.hub.store.published)
    (htombs : ∀ t, t ∈ s'.hub.store.tombstones ∨ (∃ r ∈ s'.requests, t ∈ r.tombs) ∨
      t ∈ s'.replay.tombs → t ∈ s.hub.store.tombstones ∨ (∃ r ∈ s.requests, t ∈ r.tombs) ∨
        t ∈ s.replay.tombs) : s.Shows rid := by
  have hback {t : Tombstone} (ht : t ∈ s.hub.store.tombstones ∨ (∃ r ∈ s.requests, t ∈ r.tombs) ∨
      t ∈ s.replay.tombs) : s.Shows t.cause := by
    rcases ht with ht | ⟨r, hr, ht⟩ | ht
    · exact .inr (.inl ⟨t, ht, rfl⟩)
    · exact .inr (.inr (.inl ⟨r, hr, t, ht, rfl⟩))
    · exact .inr (.inr (.inr ⟨t, ht, rfl⟩))
  rcases h with ⟨e, he, rfl⟩ | ⟨t, ht, rfl⟩ | ⟨r, hr, t, ht, rfl⟩ | ⟨t, ht, rfl⟩
  · exact .inl ⟨e, hpublished he, rfl⟩
  · exact hback (htombs t (.inl ht))
  · grind
  · grind

theorem cause_replacement {record : LogRecord} {streamId : ℕ} (h : t ∈ replacement record streamId) :
    t.cause = record.rid := by
  grind [replacement]

theorem mem_tombs_set (h : ∃ q ∈ s.requests.set j r', t ∈ q.tombs) :
    (∃ q ∈ s.requests, t ∈ q.tombs) ∨ t ∈ r'.tombs := by
  grind

theorem shows_setRequest (h : s'.Shows rid) (hj : s.requests[j]? = some r)
    (hrequests : s'.requests = s.requests.set j r') (htombs : r'.tombs ⊆ r.tombs)
    (hstore : s'.hub.store = s.hub.store) (hreplay : s'.replay = s.replay) : s.Shows rid := by
  refine shows_of_subset h (by rw [hstore]; exact Subset.refl _) fun t ht => ?_
  grind

theorem shows_of_hub {hub : Hub M} (hpublished : hub.store.published = s.hub.store.published)
    (htombstones : hub.store.tombstones = s.hub.store.tombstones) :
    Shows { s with hub } rid ↔ s.Shows rid := by
  grind [Shows]

theorem shows_serves (hj : s.requests[j]? = some r) (h : Serves env s j r s') (hshows : s'.Shows rid) :
    s.Shows rid ∨ ∃ x, (x ∈ s'.replay.records ∨ x ∈ s'.hub.records) ∧ x.rid = rid := by
  cases h with
  | plan | route | answer =>
    exact .inl (shows_setRequest hshows hj rfl (Subset.refl _) rfl rfl)
  | issue =>
    refine .inl (shows_of_subset hshows (Subset.refl _) fun t ht => ?_)
    rcases ht with ht | ht | ht
    · rcases mem_append.mp ht with ht | ht
      · exact .inl ht
      · grind
    · rcases mem_tombs_set ht with ht | ht
      · exact .inr (.inl ht)
      · cases ht
    · exact .inr (.inr ht)
  | @deliver work snd infoId ok d hub hwork hsender hd =>
    obtain ⟨hpublished, htombstones⟩ := hd.store
    have hkeeps (hs : Shows { s with hub } rid) : s.Shows rid :=
      (shows_of_hub hpublished htombstones).mp hs
    cases d with
    | goes | saturated | closed | failed =>
      exact .inl (hkeeps (shows_setRequest hshows hj rfl (Subset.refl _) rfl rfl))
    | sent =>
      rcases hshows with ⟨e, he, rfl⟩ | ⟨t, ht, rfl⟩ | ⟨q, hq, t, ht, rfl⟩ | ⟨t, ht, rfl⟩
      · exact .inl (hkeeps (.inl ⟨e, he, rfl⟩))
      · exact .inl (hkeeps (.inr (.inl ⟨t, ht, rfl⟩)))
      · rcases mem_tombs_set ⟨q, hq, ht⟩ with ⟨q, hq, ht⟩ | ht
        · exact .inl (.inr (.inr (.inl ⟨q, hq, t, ht, rfl⟩)))
        · rcases mem_append.mp ht with ht | ht
          · exact .inl (.inr (.inr (.inl ⟨r, mem_of_getElem? hj, t, ht, rfl⟩)))
          · -- the tombstone of the copy that was just sent
            refine .inr ⟨snd.record, Or.inr ?_, (cause_replacement ht).symm⟩
            exact hd.gives.mem_iff.mpr (mem_append_right _ mem_cons_self)
      · exact .inl (.inr (.inr (.inr ⟨t, ht, rfl⟩)))

theorem shows_replay_keeps (h : s'.Shows rid)
    (hpublished : s'.hub.store.published = s.hub.store.published) (hrequests : s'.requests = s.requests)
    (htombs : ∀ t, t ∈ s'.hub.store.tombstones ∨ t ∈ s'.replay.tombs →
      t ∈ s.hub.store.tombstones ∨ t ∈ s.replay.tombs) : s.Shows rid := by
  grind [shows_of_subset]

theorem shows_replays {ok : Bool} (h : Replays env ok s s') (hshows : s'.Shows rid) :
    s.Shows rid ∨ ∃ x, (x ∈ s'.replay.records ∨ x ∈ s'.hub.records) ∧ x.rid = rid := by
  have hissue (t : Tombstone) (ht : t ∈ (s.issue s.replay.tombs).hub.store.tombstones ∨
      t ∈ ([] : List Tombstone)) : t ∈ s.hub.store.tombstones ∨ t ∈ s.replay.tombs := by
    simpa [issue] using ht
  cases h with
  | stops | yields => exact .inl (shows_replay_keeps hshows rfl rfl fun _ ht => ht)
  | issues => exact .inl (shows_replay_keeps hshows rfl rfl hissue)
  | @tomb r hcurrent =>
    have hstore := Hub.streamInfo_store env s.hub r.item.stream ok
    unfold replayTomb at hshows ⊢
    rcases hinfo : s.hub.streamInfo env r.item.stream ok with ⟨_ | id, hub⟩
    all_goals
      rw [hinfo] at hshows hstore
      dsimp only at hshows hstore ⊢
    · refine .inl (shows_replay_keeps hshows hstore.1 rfl fun t ht => ?_)
      exact ht.imp_left (hstore.2 ▸ ·)
    · rcases hshows with ⟨e, he, rfl⟩ | ⟨t, ht, rfl⟩ | ⟨q, hq, t, ht, rfl⟩ | ⟨t, ht, rfl⟩
      · exact .inl (.inl ⟨e, hstore.1 ▸ he, rfl⟩)
      · exact .inl (.inr (.inl ⟨t, hstore.2 ▸ ht, rfl⟩))
      · exact .inl (.inr (.inr (.inl ⟨q, hq, t, ht, rfl⟩)))
      · rcases mem_append.mp ht with ht | ht
        · exact .inl (.inr (.inr (.inr ⟨t, ht, rfl⟩)))
        · grind [setReplay, Replay.records, ReplayStage.record]
  | upsert =>
    unfold replayUpsert at hshows
    split_ifs at hshows
    · exact .inl (shows_replay_keeps hshows rfl rfl hissue)
    · exact .inl (shows_replay_keeps hshows rfl rfl fun _ ht => ht)
  | check =>
    unfold replayCheck at hshows
    split_ifs at hshows <;> exact .inl (shows_replay_keeps hshows rfl rfl fun _ ht => ht)
  | @deliver snd d hub hcurrent hd =>
    obtain ⟨hpublished, htombstones⟩ := hd.store
    refine .inl ((shows_of_hub hpublished htombstones).mp ?_)
    cases d <;> exact shows_replay_keeps hshows rfl rfl fun _ ht => ht

theorem held_of_moves (h : s.step env a = some s') (hcrash : a ≠ .crash) :
    ∀ r ∈ s'.held, r ∈ s.held ∨ s.book.nextRid ≤ r.rid := by
  intro r hr
  obtain ⟨gone, entries, hflow⟩ | ⟨plans, rfl⟩ | ⟨routes, rfl⟩ | ⟨g, rfl⟩ | rfl := step_flow h
  · exact .inl (hflow.held.mem_iff.mpr (mem_append_left _ hr))
  · obtain ⟨⟨new, b⟩, hb, rfl⟩ := Option.map_eq_some_iff.mp h
    rcases mem_append.mp ((s.held_append b new).mem_iff.mp hr) with hr | hr
    · exact .inl hr
    · exact .inr (Numbered.new (Appended.of_appendPlans hb) r hr).1
  · obtain ⟨⟨new, b⟩, hb, rfl⟩ := Option.map_eq_some_iff.mp h
    rcases mem_append.mp ((s.held_appendFails b new).mem_iff.mp hr) with hr | hr
    · exact .inl hr
    · exact .inr (Numbered.new (Appended.of_appendRoutes hb) r hr).1
  · simp only [step] at h
    split_ifs at h
    cases h
    exact .inl hr
  · exact absurd rfl hcrash

theorem Surfaces.quiet (hheld : ∀ r ∈ s'.held, r ∈ s.held ∨ s.book.nextRid ≤ r.rid)
    (hnext : s'.book.nextRid = s.book.nextRid) (hrequests : s'.requests = s.requests)
    (hshows : ∀ rid, s'.Shows rid → s.Shows rid) : Surfaces s s' where
  nextRid := hnext.ge
  held := hheld
  requests req hreq _ hr := .inl ⟨req, hrequests ▸ hreq, hr⟩
  shows rid h := .inl (hshows rid h)

theorem Surfaces.of_moves (hstep : s.step env a = some s') (hcrash : a ≠ .crash) : Surfaces s s' := by
  have hheld := held_of_moves hstep hcrash
  cases moves_of_step hstep with
  | outside _ hpublished htombstones =>
    exact .quiet hheld rfl rfl fun rid => (shows_of_hub hpublished htombstones).mp
  | append hb =>
    have happended := Appended.of_appendPlans hb
    refine ⟨happended.nextRid ▸ Nat.le_add_right .., hheld, fun req hreq r hr => ?_, fun rid h => ?_⟩
    · rcases mem_append.mp hreq with hreq | hreq
      · exact .inl ⟨req, hreq, hr⟩
      · rw [mem_singleton.mp hreq] at hr
        exact .inr (Numbered.new happended r hr).1
    · refine .inl (shows_of_subset h (Subset.refl _) fun t ht => ?_)
      rcases ht with ht | ⟨req, hreq, ht⟩ | ht
      · exact .inl ht
      · grind
      · exact .inr (.inr ht)
  | appendFails hb =>
    have happended := Appended.of_appendRoutes hb
    exact ⟨happended.nextRid ▸ Nat.le_add_right .., hheld, fun req hreq r hr => .inl ⟨req, hreq, hr⟩,
      fun rid h => .inl h⟩
  | @request j ok r s' hj hserves =>
    obtain ⟨r', entries, hmove⟩ := hserves.move
    refine ⟨hmove.nextRid.ge, hheld, fun req hreq x hx => Or.inl ?_, fun rid h => shows_serves hj hserves h⟩
    rw [hmove.requests] at hreq
    rcases mem_or_eq_of_mem_set hreq with hreq | rfl
    · exact ⟨req, hreq, hx⟩
    · exact ⟨r, mem_of_getElem? hj, hmove.records hx⟩
  | replay _ hreplays =>
    obtain ⟨entries, hmove⟩ := hreplays.move
    refine ⟨hmove.nextRid.ge, hheld, fun req hreq x hx => .inl ⟨req, hmove.requests ▸ hreq, hx⟩,
      fun rid h => shows_replays hreplays h⟩
  | @worker i input w w' eff hi hworker =>
    refine ⟨?_, hheld, fun req hreq x hx => .inl ⟨req, ?_, hx⟩, fun rid h => ?_⟩
    · rw [apply_nextRid]
    · rwa [apply_requests] at hreq
    rw [Shows, apply_hub, apply_requests, apply_replay] at h
    rcases h with ⟨e, he, rfl⟩ | h
    · rcases mem_append.mp he with he | he
      · exact .inl (.inl ⟨e, he, rfl⟩)
      · obtain ⟨x, hx, rfl⟩ := mem_map.mp he
        refine .inr ⟨x.record, Or.inr ?_, rfl⟩
        rw [apply_hub]
        refine mem_flatMap.mpr ⟨w', ?_, Worker.publish_records hworker x hx⟩
        exact mem_set (List.getElem?_eq_some_iff.mp hi).1 w'
    · exact .inl (.inr h)
  | flushStream | unlink => exact .quiet hheld rfl rfl fun _ h => h
  | crash => exact absurd rfl hcrash

/-! ## A refused copy -/

def Answer.Refused (a : Answer) : Prop :=
  a.status = 429 ∨ a.status = 500

theorem Work.not_accepted (h : work.answer.Refused) : work.accepted = false := by
  grind [Answer.Refused, answer]

def RefusedNow (s s' : State M) (r : LogRecord) : Prop :=
  (∃ req ∈ s.requests, r ∈ req.records) ∧ s.held.Perm (s'.held ++ [r])

/-- A record that a request has tried to deliver while nothing was accepted. -/
def State.Tried (s : State M) (x : LogRecord) : Prop :=
  ∃ req ∈ s.requests, ∃ work, req.work = some work ∧ work.accepted = false ∧ x ∈ work.tried

theorem tried_of_serves (hj : s.requests[j]? = some r) (h : Serves env s j r s')
    {x : LogRecord} (hx : s'.Tried x) : s.Tried x ∨ RefusedNow s s' x := by
  obtain ⟨req, hreq, work, hwork, haccepted, hx⟩ := hx
  have hold {work' : Work M} (hwork' : r.work = some work') (hsame : work'.accepted = work.accepted)
      (hx : x ∈ work'.tried) : s.Tried x :=
    ⟨r, mem_of_getElem? hj, work', hwork', hsame ▸ haccepted, hx⟩
  by_cases hother : req ∈ s.requests
  · exact .inl ⟨req, hother, work, hwork, haccepted, hx⟩
  have hserved {r' : Request M} (hreq : req ∈ s.requests.set j r') : req = r' :=
    (mem_or_eq_of_mem_set hreq).resolve_left hother
  cases h with
  | plan _ _ =>
    cases hserved hreq
    cases hwork
    cases hx
  | issue hnone =>
    cases hserved hreq
    cases hnone.symm.trans hwork
  | route hwork' =>
    cases hserved hreq
    cases hwork
    exact .inl (hold hwork' rfl hx)
  | answer =>
    cases hserved hreq
    cases hwork
  | @deliver work' snd infoId ok d hub hwork' hsender hd =>
    have hrefuse (saturated : Bool) (hhub : hub.records.Perm s.hub.records)
        (hx : x ∈ work'.tried ++ [snd.record]) (hsame : work'.accepted = work.accepted) :
        s.Tried x ∨ RefusedNow s ({ s with hub }.refuse j r work' snd.record saturated) x := by
      rcases mem_append.mp hx with hx | hx
      · exact .inl (hold hwork' hsame hx)
      · obtain ⟨r', hmove⟩ := refuse_move (j := j) saturated hwork' hsender hhub
        rw [mem_singleton.mp hx]
        refine .inr ⟨⟨r, mem_of_getElem? hj, ?_⟩, (hmove.flow hj).held⟩
        rw [Request.records_sending hwork' hsender]
        exact mem_cons_self
    have hgives := hd.gives
    cases d with
    | goes snd' =>
      cases hserved hreq
      cases hwork
      exact .inl (hold hwork' rfl hx)
    | sent =>
      cases hserved hreq
      cases hwork
      cases haccepted
    | saturated | closed | failed =>
      cases hserved hreq
      cases hwork
      exact hrefuse _ hgives hx rfl

theorem answered_of_serves (hj : s.requests[j]? = some r) (h : Serves env s j r s') {a : Answer}
    (ha : a ∈ s'.answered) :
    a ∈ s.answered ∨ ∃ req ∈ s.requests, ∃ work, req.work = some work ∧ a = work.answer := by
  cases h with
  | plan | issue | route => exact .inl ha
  | @deliver work snd infoId ok d hub _ _ hd => cases d <;> exact .inl ha
  | answer hwork =>
    rcases mem_append.mp ha with ha | ha
    · exact .inl ha
    · grind

theorem State.Replays.answered {ok : Bool} (h : Replays env ok s s') :
    s'.answered = s.answered := by
  cases h with
  | stops | yields | issues => rfl
  | tomb =>
    unfold replayTomb
    split <;> rfl
  | upsert =>
    unfold replayUpsert
    split_ifs <;> rfl
  | check =>
    unfold replayCheck
    split_ifs <;> rfl
  | @deliver snd d hub => cases d <;> rfl

/-- What a step adds to the records tried and to the answers. -/
structure Tries (s s' : State M) : Prop where
  tried : ∀ x, s'.Tried x → s.Tried x ∨ RefusedNow s s' x
  answered : ∀ ans ∈ s'.answered, ans ∈ s.answered ∨
    ∃ req ∈ s.requests, ∃ work, req.work = some work ∧ ans = work.answer

theorem Tries.of_eq (hrequests : s'.requests = s.requests) (hanswered : s'.answered = s.answered) :
    Tries s s' where
  tried x hx := by
    rw [Tried, hrequests] at hx
    exact .inl hx
  answered ans hans := .inl (hanswered ▸ hans)

theorem Tries.of_moves (hstep : s.step env a = some s') (hcrash : a ≠ .crash) : Tries s s' := by
  cases moves_of_step hstep with
  | outside | appendFails | flushStream | unlink => exact .of_eq rfl rfl
  | append =>
    refine ⟨fun x hx => .inl ?_, fun ans hans => .inl hans⟩
    obtain ⟨req, hreq, work, hwork, hx⟩ := hx
    rcases mem_append.mp hreq with hreq | hreq
    · exact ⟨req, hreq, work, hwork, hx⟩
    · rw [mem_singleton.mp hreq] at hwork
      cases hwork
  | request hj hserves =>
    exact ⟨fun x => tried_of_serves hj hserves, fun ans => answered_of_serves hj hserves⟩
  | replay _ hreplays =>
    obtain ⟨entries, hmove⟩ := hreplays.move
    exact .of_eq hmove.requests hreplays.answered
  | worker => exact .of_eq (apply_requests ..) (apply_answered ..)
  | crash => exact absurd rfl hcrash

end Steps

/-! ## What requests have is not shown -/

structure Unshown (s : State M) : Prop where
  housed : Housed s
  lt : ∀ rid, s.Shows rid → rid < s.book.nextRid
  requests : ∀ req ∈ s.requests, ∀ r ∈ req.records, ¬ s.Shows r.rid

namespace Unshown

variable {env : Env M} {s s' : State M}

theorem init : Unshown (init : State M) where
  housed := .init
  lt rid h := by
    rcases h with ⟨e, he, -⟩ | ⟨t, ht, -⟩ | ⟨r, hr, -⟩ | ⟨t, ht, -⟩ <;> contradiction
  requests req hreq := by cases hreq

theorem shows_of_restart {rid : ℕ} (h : s.restart.Shows rid) : s.Shows rid := by
  rcases h with he | ht | ⟨r, hr, -⟩ | ⟨t, ht, -⟩
  · exact .inl he
  · exact .inr (.inl ht)
  · cases hr
  · cases ht

theorem restart (h : Unshown s) : Unshown s.restart :=
  ⟨h.housed.restart, fun rid hrid => h.lt rid (shows_of_restart hrid), fun req hreq => by cases hreq⟩

variable {a : Action M}

theorem step (h : Unshown s) (hstep : s.step env a = some s') (hcrash : a ≠ .crash) : Unshown s' := by
  have hhoused := h.housed.step hstep
  have hsurfaces := Surfaces.of_moves hstep hcrash
  refine ⟨hhoused, fun rid hshows => ?_, fun req hreq r hr hshows => ?_⟩
  · rcases hsurfaces.shows rid hshows with hshows | ⟨x, hx, rfl⟩
    · exact (h.lt rid hshows).trans_le hsurfaces.nextRid
    · refine hhoused.lt x ?_
      grind [held]
  · rcases hsurfaces.shows _ hshows with hshows | ⟨x, hx, hrid⟩
    · rcases hsurfaces.requests req hreq r hr with ⟨req, hreq, hr⟩ | hnew
      · exact h.requests req hreq r hr hshows
      · exact absurd (h.lt _ hshows) (Nat.not_lt.mpr hnew)
    · exact hhoused.request_ne hreq hr hx hrid

theorem next (h : Unshown s) (hstep : s.step env a = some s') : Unshown s' := by
  cases a with
  | crash =>
    cases hstep
    exact h.restart
  | _ => exact h.step hstep (by simp)

end Unshown

/-! ## While the node runs -/

/-- **What is refused stays gone.** -/
structure Silent (s : State M) : Prop extends Unshown s where
  tried : ∀ req ∈ s.requests, ∀ work, req.work = some work → work.accepted = false →
    ∀ r ∈ work.tried, s.Gone r.rid
  answered : ∀ a ∈ s.answered, a.Refused → ∀ r ∈ a.records, s.Gone r.rid

def State.RefusedUnlinked (s : State M) : Prop :=
  ∀ a ∈ s.answered, a.Refused → ∀ r ∈ a.records, ∀ x ∈ s.book.surviving, x.rid ≠ r.rid

namespace Silent

variable {env : Env M} {s s' : State M}

theorem init : Silent (init : State M) where
  toUnshown := .init
  tried req hreq := by cases hreq
  answered a ha := by cases ha

theorem gone_of_refused (h : Unshown s) (hsurfaces : Surfaces s s') {r : LogRecord}
    (hrefused : RefusedNow s s' r) : s'.Gone r.rid := by
  obtain ⟨⟨req, hreq, hr⟩, hheld⟩ := hrefused
  have hunheld : ∀ x ∈ s'.held, x.rid ≠ r.rid := by
    have hnodup := (hheld.map (·.rid)).nodup_iff.mp h.housed.nodup
    rw [map_append, nodup_append] at hnodup
    exact fun x hx => hnodup.2.2 _ (mem_map_of_mem hx) _ (mem_map_of_mem mem_cons_self)
  have hmem : r ∈ s.held := hheld.mem_iff.mpr (mem_append_right _ mem_cons_self)
  refine ⟨(h.housed.lt r hmem).trans_le hsurfaces.nextRid, fun hshows => ?_, hunheld⟩
  rcases hsurfaces.shows _ hshows with hshows | ⟨x, hx, hrid⟩
  · exact h.requests req hreq r hr hshows
  · grind [held]

theorem step (h : Silent s) {a : Action M} (hstep : s.step env a = some s') (hcrash : a ≠ .crash) :
    Silent s' := by
  have hsurfaces := Surfaces.of_moves hstep hcrash
  obtain ⟨htried, hanswered⟩ := Tries.of_moves hstep hcrash
  refine ⟨h.toUnshown.step hstep hcrash, fun req hreq work hwork haccepted r hr => ?_,
    fun ans hans hrefused r hr => ?_⟩
  · rcases htried r ⟨req, hreq, work, hwork, haccepted, hr⟩ with
      ⟨req, hreq, work, hwork, hacc, hr⟩ | hnow
    · exact (h.tried req hreq work hwork hacc r hr).step hsurfaces
    · exact gone_of_refused h.toUnshown hsurfaces hnow
  · rcases hanswered ans hans with hans | ⟨req, hreq, work, hwork, rfl⟩
    · exact (h.answered ans hans hrefused r hr).step hsurfaces
    · exact (h.tried req hreq work hwork (Work.not_accepted hrefused) r hr).step hsurfaces

theorem restart (h : Silent s) (hunlinked : s.RefusedUnlinked) : Silent s.restart := by
  refine ⟨h.toUnshown.restart, fun req hreq => ?_, fun a ha hrefused r hr => ?_⟩
  · cases hreq
  have hgone := h.answered a ha hrefused r hr
  refine ⟨hgone.lt, fun hrid => hgone.silent (Unshown.shows_of_restart hrid), fun x hx => ?_⟩
  rw [held_restart] at hx
  exact hunlinked a ha hrefused r hr x hx

end Silent

/-- **The condition**: a crash finds no record of a refused item in a file. -/
def CrashFindsNoRefused (s : State M) : Action M → Prop
  | .crash => s.RefusedUnlinked
  | _ => True

instance (a : Answer) : Decidable a.Refused :=
  inferInstanceAs (Decidable (_ ∨ _))

instance (s : State M) : Decidable s.RefusedUnlinked := by
  unfold State.RefusedUnlinked
  infer_instance

instance (s : State M) (a : Action M) : Decidable (CrashFindsNoRefused s a) := by
  induction a using Action.casesOn <;> dsimp only [CrashFindsNoRefused] <;> infer_instance

theorem Silent.next {env : Env M} {a : Action M} (h : Silent s) (hcond : CrashFindsNoRefused s a)
    (hstep : s.step env a = some s') : Silent s' := by
  cases a with
  | crash =>
    cases hstep
    exact h.restart hcond
  | _ => exact h.step hstep (by simp)

/-- No record of an item answered with 429 or 500 is published, and no tombstone was issued for it. -/
def State.RefusedNeverShown (s : State M) : Prop :=
  ∀ a ∈ s.answered, a.Refused → ∀ r ∈ a.records,
    (∀ e ∈ s.hub.store.published, e.2.rid ≠ r.rid) ∧ ∀ t ∈ s.hub.store.tombstones, t.cause ≠ r.rid

theorem Silent.refusedNeverShown (h : Silent s) : s.RefusedNeverShown := by
  intro a ha hrefused r hr
  have hsilent := (h.answered a ha hrefused r hr).silent
  exact ⟨fun e he hrid => hsilent (.inl ⟨e, he, hrid⟩), fun t ht hrid => hsilent (.inr (.inl ⟨t, ht, hrid⟩))⟩

/-- **A refused write stays gone**, in every run in which no crash finds a record of a refused item in a
file. -/
theorem refused_stays_gone {env : Env M} {as : List (Action M)} {s : State M}
    (hrun : Runs.run (State.step env) State.init as = some s)
    (hcond : Runs.Along (State.step env) CrashFindsNoRefused State.init as) : s.RefusedNeverShown :=
  (Runs.run_invariant (State.step env) (fun _ _ _ hs hc hstep => hs.next hc hstep) Silent.init hcond
    hrun).refusedNeverShown

/-! ## A crash before the file is unlinked -/

def narrow : Env Unit :=
  { plain with queueCapacity := 1 }

/-- Document `a` is accepted and waits in the channel; the write that replaces it finds the channel full
and is answered with 429. -/
def secondRefused : List (Action Unit) :=
  [.createStream "s" (), appendDoc false "a"] ++ serve 0 10 ++
    [.append [[⟨false, ⟨"s", "a", 2, true, "y"⟩, 0⟩]]] ++ serve 1 6

/-- The first document is published, the segment's file is unlinked, and the node crashes then. -/
def unlinkedInTime : List (Action Unit) :=
  secondRefused ++ .worker 0 .recv :: publishes 0 ++ [.worker 0 .tick, appendDoc true "c",
    .unlink 0, .crash] ++ replays 9 ++ .worker 0 .recv :: publishes 0

theorem refused_stays_gone_unlinkedInTime :
    ∃ s, Runs.run (State.step narrow) State.init unlinkedInTime = some s ∧ s.RefusedNeverShown ∧
      s.answered.map (·.status) = [200, 429] ∧
      s.hub.store.published.map (·.2.item.id) = ["a", "c"] := by
  obtain ⟨s, hrun, hend⟩ : ∃ s, Runs.run (State.step narrow) State.init unlinkedInTime = some s ∧
      s.answered.map (·.status) = [200, 429] ∧
      s.hub.store.published.map (·.2.item.id) = ["a", "c"] := by
    decide +kernel
  exact ⟨s, hrun, refused_stays_gone hrun (by decide +kernel), hend⟩

def crashedBefore : List (Action Unit) :=
  secondRefused ++ .crash :: replays 9 ++ .worker 0 .recv :: replays 8 ++ .worker 0 .recv :: publishes 0

/-- **A refused write is replayed.**  Replay yields both records, issues the tombstone of the second and
publishes it. -/
theorem refused_replayed_after_crash :
    ¬ ∀ (as : List (Action Unit)) (s : State Unit),
      Runs.run (State.step narrow) State.init as = some s → s.RefusedNeverShown := by
  intro hclaim
  obtain ⟨s, hrun, a, ha, hrefused, r, hr, e, he, hrid⟩ :
      ∃ s, Runs.run (State.step narrow) State.init crashedBefore = some s ∧
        ∃ a ∈ s.answered, a.Refused ∧ ∃ r ∈ a.records, ∃ e ∈ s.hub.store.published,
          e.2.rid = r.rid := by
    decide +kernel
  exact (hclaim _ s hrun a ha hrefused r hr).1 e he hrid

end RSearch.Pipeline
