import RSearch.Pipeline.AcceptedRow
import RSearch.Pipeline.Handoff

/-!
# Replay's tombstones and its documents

A record with the tombstone flag replaces the older versions of its document.  Replay collects the
tombstones and issues them a thousand at a time, while the documents go to the workers one by one.  So a
worker may publish a document before its tombstone; if replay fails in between, that is never issued.
-/

namespace RSearch.Pipeline

open List Wal State

variable {M : Type}

/-! ## Announced tombstones -/

def LogRecord.tombstoneAt (r : LogRecord) (id : ℕ) : Tombstone :=
  ⟨id, r.item.id, r.item.seq, r.rid⟩

def State.Covers (s : State M) (id : ℕ) (r : LogRecord) : Prop :=
  r.tombstoneAt id ∈ s.hub.store.tombstones ∨ r.tombstoneAt id ∈ s.replay.tombs

instance (s : State M) (id : ℕ) (r : LogRecord) : Decidable (s.Covers id r) :=
  inferInstanceAs (Decidable (_ ∨ _))

/-- What replay is handing on, if it is about to ask for the row, is covered under the row that it will
be answered with. -/
def Replay.AsksCovered (s : State M) (snd : Sender M) : Prop :=
  match snd.stage with
  | .info => snd.record.item.tombstone = true →
      ∃ id ∈ s.hub.rowOf snd.record.item.stream, s.Covers id snd.record
  | _ => True

/-- **The condition**: replay is answered with the row it has made the tombstone for, and a worker that
builds a flagged document of replay's finds no tombstones in replay's hand. -/
def TombstonesIssued (s : State M) : Action M → Prop
  | .replay _ => ∀ snd ∈ s.replay.sender?, Replay.AsksCovered s snd
  | .worker i (.build _) => ∀ w ∈ s.hub.workers[i]?,
      (∃ x ∈ w.run.owned, x.record ∈ s.replay.yielded ∧ x.record.item.tombstone = true) →
        s.replay.tombs = []
  | _ => True

@[reducible] def SendStage.decideInfo (P : Prop) [Decidable P] : (stage : SendStage M) →
    Decidable (match stage with | .info => P | _ => True)
  | .info => inferInstanceAs (Decidable P)
  | .workerFor _ | .waitCreate _ | .resolve _ | .spawn _ _ | .send _ _ | .permit _ _ =>
    instDecidableTrue

instance (s : State M) (snd : Sender M) : Decidable (Replay.AsksCovered s snd) :=
  SendStage.decideInfo (snd.record.item.tombstone = true →
    ∃ id ∈ s.hub.rowOf snd.record.item.stream, s.Covers id snd.record) snd.stage

instance (s : State M) (a : Action M) : Decidable (TombstonesIssued s a) := by
  induction a using Action.casesOn with
  | worker _ b => induction b using Input.casesOn <;> dsimp only [TombstonesIssued] <;> infer_instance
  | _ => dsimp only [TombstonesIssued]; infer_instance

/-- Every flagged record that replay has handed on, or is handing on with a row, is covered. -/
structure Announced (s : State M) : Prop where
  housed : Housed s
  matched : ∀ w ∈ s.hub.workers, w.Matched
  apart : ∃ bound, Apart s bound
  sender : ∀ snd ∈ s.replay.sender?, snd.record.item.tombstone = true →
    ∀ id ∈ snd.stage.streamId?, s.Covers id snd.record
  items : ∀ x, s.hub.Holds x → x.record ∈ s.replay.yielded → x.record.item.tombstone = true →
    s.Covers x.streamId x.record

section Steps

variable {env : Env M} {s s' : State M}

variable {id : ℕ} {r : LogRecord} {a : Action M}

theorem covers_of_replays {ok : Bool} (h : Replays env ok s s') (hcovers : s.Covers id r) :
    s'.Covers id r := by
  have hissue : r.tombstoneAt id ∈ s.hub.store.tombstones ++ s.replay.tombs :=
    mem_append.mpr hcovers
  cases h with
  | stops | yields => exact hcovers
  | issues => exact .inl hissue
  | @tomb record =>
    have hstore := (s.hub.streamInfo_store env record.item.stream ok).2
    unfold replayTomb
    rcases hinfo : s.hub.streamInfo env record.item.stream ok with ⟨_ | id', hub⟩
    all_goals
      rw [hinfo] at hstore
      refine hcovers.imp (fun ht => ?_) fun ht => ?_
    · exact hstore.symm ▸ ht
    · exact ht
    · exact hstore.symm ▸ ht
    · exact mem_append_left _ ht
  | upsert =>
    unfold replayUpsert
    split_ifs
    · exact .inl hissue
    · exact hcovers
  | check =>
    unfold replayCheck
    split_ifs <;> exact hcovers
  | @deliver snd d hub hcurrent hd =>
    have hstore := hd.store.2
    cases d <;> exact hcovers.imp_left fun ht => hstore.symm ▸ ht

theorem covers_of_serves {j : ℕ} {q : Request M} (h : Serves env s j q s')
    (hcovers : s.Covers id r) : s'.Covers id r := by
  cases h with
  | plan | route | answer => exact hcovers
  | issue => exact hcovers.imp_left (mem_append_left _)
  | @deliver work snd infoId ok d hub _ _ hd =>
    have hstore := hd.store.2
    cases d <;> exact hcovers.imp_left fun ht => hstore.symm ▸ ht

theorem State.Covers.step (h : s.Covers id r) (hstep : s.step env a = some s') (hcrash : a ≠ .crash) :
    s'.Covers id r := by
  cases moves_of_step hstep with
  | outside _ _ htombstones => exact h.imp_left fun ht => htombstones.symm ▸ ht
  | append | appendFails | flushStream | unlink => exact h
  | request _ hserves => exact covers_of_serves hserves h
  | replay _ hreplays => exact covers_of_replays hreplays h
  | worker =>
    rw [Covers, apply_hub, apply_replay]
    exact h
  | crash => exact absurd rfl hcrash

theorem yielded_of_step (hstep : s.step env a = some s') (hcrash : a ≠ .crash) :
    ∀ r ∈ s'.replay.yielded, r ∈ s.replay.yielded ∨ r ∈ s.replay.records ∧ ∃ ok, a = .replay ok := by
  cases moves_of_step hstep with
  | outside | append | appendFails | flushStream | unlink => exact fun r => Or.inl
  | request _ hserves =>
    obtain ⟨r', entries, hmove⟩ := hserves.move
    rw [hmove.replay]
    exact fun r => Or.inl
  | @replay ok _ _ hreplays =>
    obtain ⟨entries, hmove⟩ := hreplays.move
    exact fun r hr => (hmove.yielded r hr).imp_right fun hr => ⟨hr, ok, rfl⟩
  | worker =>
    grind [apply_replay]
  | crash => exact absurd rfl hcrash

end Steps

namespace Announced

variable {env : Env M} {s s' : State M}

theorem init : Announced (init : State M) where
  housed := .init
  matched := matched_init
  apart := ⟨0, .init⟩
  sender snd hsnd := by cases hsnd
  items x hx := by
    obtain ⟨w, hw, -⟩ := hx
    cases hw

theorem restart (h : Announced s) : Announced s.restart where
  housed := h.housed.restart
  matched w hw := by cases hw
  apart := by
    obtain ⟨bound, hapart⟩ := h.apart
    exact ⟨_, hapart.restart⟩
  sender snd hsnd := by cases hsnd
  items x hx := by
    obtain ⟨w, hw, -⟩ := hx
    cases hw

theorem replays (h : Announced s) {ok : Bool} (hcond : TombstonesIssued s (.replay ok))
    (hreplays : Replays env ok s s') : ∀ snd ∈ s'.replay.sender?,
      snd.record.item.tombstone = true → ∀ id ∈ snd.stage.streamId?, s'.Covers id snd.record := by
  intro snd' hsnd hflag id hid
  refine covers_of_replays hreplays ?_
  obtain hinfo | ⟨snd, hcurrent, hrecord, hmoved⟩ := hreplays.sender hsnd
  · rw [hinfo] at hid
    cases hid
  have hsender : snd ∈ s.replay.sender? := by
    rw [Replay.sender?, hcurrent]
    rfl
  rw [hrecord] at hflag ⊢
  rcases hmoved with ⟨hstage, id', hstage', hanswer⟩ | hkeeps
  · have hasks := hcond snd hsender
    simp only [Replay.AsksCovered, hstage] at hasks
    obtain ⟨row, hrow, hcovers⟩ := hasks hflag
    rw [hstage'] at hid
    cases hid
    rwa [(Hub.streamInfo_of_rowOf env ok hrow).1 _ hanswer]
  · exact h.sender snd hsender hflag id (hkeeps ▸ hid)

variable {a : Action M}

theorem senders (h : Announced s) (hcond : TombstonesIssued s a) (hstep : s.step env a = some s')
    (hcrash : a ≠ .crash) : ∀ snd ∈ s'.replay.sender?,
      snd.record.item.tombstone = true → ∀ id ∈ snd.stage.streamId?, s'.Covers id snd.record := by
  have hkeeps (hreplay : s'.replay = s.replay) : ∀ snd ∈ s'.replay.sender?,
      snd.record.item.tombstone = true → ∀ id ∈ snd.stage.streamId?, s'.Covers id snd.record := by
    rw [hreplay]
    exact fun snd hsnd hflag id hid => (h.sender snd hsnd hflag id hid).step hstep hcrash
  cases moves_of_step hstep with
  | outside | append | appendFails | flushStream | unlink => exact hkeeps rfl
  | request _ hserves =>
    obtain ⟨r', entries, hmove⟩ := hserves.move
    exact hkeeps hmove.replay
  | replay _ hreplays => exact h.replays hcond hreplays
  | worker => exact hkeeps (apply_replay ..)
  | crash => exact absurd rfl hcrash

theorem step (h : Announced s) (hcond : TombstonesIssued s a) (hstep : s.step env a = some s')
    (hcrash : a ≠ .crash) : Announced s' := by
  obtain ⟨bound, hapart⟩ := h.apart
  refine ⟨h.housed.step hstep, matched_step h.matched hstep,
    ⟨bound, hapart.step (moves_of_step hstep) hcrash⟩, h.senders hcond hstep hcrash,
    fun x hx hyielded hflag => ?_⟩
  rcases holds_of_step h.matched hstep hx with hx | hfills
  · rcases yielded_of_step hstep hcrash _ hyielded with hyielded | ⟨hahead, -⟩
    · exact (h.items x hx hyielded hflag).step hstep hcrash
    · exact absurd rfl (h.housed.replay_ne_hub hahead hx.mem_records)
  · rcases hfills.source with ⟨⟨j, ok, rfl⟩, req, hreq, hr⟩ | ⟨-, snd, hsnd, hrecord, hid⟩
    · -- a request's records are newer than all that replay has yielded
      rcases yielded_of_step hstep hcrash _ hyielded with hyielded | ⟨-, ok, ha⟩
      · exact absurd (hapart.yielded _ hyielded) (Nat.not_lt.mpr (hapart.requests req hreq _ hr))
      · cases ha
    · rw [← hrecord] at hflag ⊢
      exact (h.sender snd hsnd hflag _ hid).step hstep hcrash

theorem next (h : Announced s) (hcond : TombstonesIssued s a) (hstep : s.step env a = some s') :
    Announced s' := by
  by_cases hcrash : a = .crash
  · subst hcrash
    cases hstep
    exact h.restart
  · exact h.step hcond hstep hcrash

end Announced

/-! ## The order -/

/-- Whatever the step publishes of what replay has yielded and carries the flag has its tombstone in the
metastore before. -/
def PublishesAfterTombstone (env : Env M) (s : State M) (a : Action M) : Prop :=
  ∀ s', s.step env a = some s' →
    ∀ e ∈ s'.hub.store.published.drop s.hub.store.published.length,
      e.2 ∈ s.replay.yielded → e.2.item.tombstone = true →
      ∃ t ∈ s.hub.store.tombstones,
        t.streamId = e.1 ∧ t.docId = e.2.item.id ∧ t.beforeSeq = e.2.item.seq

theorem Announced.publishesAfter {env : Env M} {s : State M} {a : Action M} (h : Announced s)
    (hcond : TombstonesIssued s a) : PublishesAfterTombstone env s a := by
  intro s' hstep e he hyielded hflag
  obtain ⟨new, hpublished, hnew⟩ := published_of_step h.matched hstep
  rw [hpublished, drop_left] at he
  obtain ⟨x, hx, rfl⟩ := mem_map.mp he
  obtain ⟨-, i, outcome, w, rfl, hi, howned⟩ := hnew x hx
  have hnone : s.replay.tombs = [] := hcond w hi ⟨x, howned, hyielded, hflag⟩
  have hholds : s.hub.Holds x := ⟨w, mem_of_getElem? hi, .inr (.inr howned)⟩
  rcases h.items x hholds hyielded hflag with ht | ht
  · exact ⟨_, ht, rfl, rfl, rfl⟩
  · rw [hnone] at ht
    cases ht

/-- **Replay's documents come after their tombstones**, in every run in which replay finds the row it has
made the tombstone for and no worker builds a flagged document of replay's while replay has tombstones
in its hand. -/
theorem published_after_tombstone {env : Env M} {as : List (Action M)}
    (hcond : Runs.Along (State.step env) TombstonesIssued State.init as) :
    Runs.Along (State.step env) (PublishesAfterTombstone env) State.init as :=
  hcond.of_invariant (State.step env) (fun _ _ _ h hc hstep => Announced.next h hc hstep)
    (fun _ _ h hc => h.publishesAfter hc) Announced.init

/-! ## A worker that is faster than replay -/

/-- A record that carries the flag is in the log, and replay has handed it to a worker, with its
tombstone still in hand; the worker has received it. -/
def flaggedReceived : List (Action Unit) :=
  [.createStream "s" (), .append [[⟨false, ⟨"s", "a", 2, true, "x"⟩, 0⟩]], .crash] ++ replays 10 ++
    [.worker 0 .recv]

def issuedInTime : List (Action Unit) :=
  flaggedReceived ++ replays 1 ++ publishes 0

theorem published_after_tombstone_issuedInTime :
    Runs.Along (State.step plain) (PublishesAfterTombstone plain) State.init issuedInTime ∧
      ∃ s, Runs.run (State.step plain) State.init issuedInTime = some s ∧
        (∃ e ∈ s.hub.store.published, e.2 ∈ s.replay.yielded ∧ e.2.item.tombstone = true) := by
  exact ⟨published_after_tombstone (by decide +kernel), by decide +kernel⟩

/-- **A document is published before its tombstone.**  The worker flushes first. -/
theorem published_before_tombstone :
    ¬ ∀ as : List (Action Unit),
      Runs.Along (State.step plain) (PublishesAfterTombstone plain) State.init as := by
  intro hclaim
  obtain ⟨s, hrun, s', hstep, hnone, e, he, hyielded, hflagged⟩ : ∃ s, Runs.run (State.step plain)
      State.init (flaggedReceived ++ (publishes 0).take 3) = some s ∧
      ∃ s', s.step plain (.worker 0 (.build .ok)) = some s' ∧ s.hub.store.tombstones = [] ∧
        ∃ e ∈ s'.hub.store.published.drop s.hub.store.published.length,
          e.2 ∈ s.replay.yielded ∧ e.2.item.tombstone = true := by
    decide +kernel
  have halong := hclaim ((flaggedReceived ++ (publishes 0).take 3) ++ [.worker 0 (.build .ok)])
  obtain ⟨t, ht, -⟩ := halong.last (State.step plain) hrun s' hstep e he hyielded hflagged
  grind

end RSearch.Pipeline
