import RSearch.Pipeline.Rejected

/-!
# The row a write was accepted against

A request hands a document over together with the row its stream had then.  The row stays with it: a
worker publishes it under that row or drops it, also if the stream was deleted or re-created since.  And
a worker never creates a row.
-/

namespace RSearch.Pipeline

open List Option Wal Runs State Replay ReplayStage Hub Metastore

variable {M : Type}

/-! ## What replay asks for -/

/-- The row that a question for the name's row is answered with: the cached one, else the live one. -/
def Hub.rowOf (hub : Hub M) (name : String) : Option ℕ :=
  (hub.cache name).or ((hub.store.streams name).map (·.id))

variable {hub : Hub M} {name : String} {id : ℕ} {s s' : State M} {a : Action M} {x : WorkItem}
  {env : Env M} {snd : Sender M}

theorem Hub.streamInfo_of_rowOf (env : Env M) (ok : Bool) (h : hub.rowOf name = some id) :
    (∀ id' ∈ (hub.streamInfo env name ok).1, id' = id) ∧
      (hub.streamInfo env name ok).2.store = hub.store := by
  unfold rowOf at h
  unfold streamInfo
  cases hcache : hub.cache name with
  | some cached =>
    rw [hcache] at h
    cases h
    simp
  | none =>
    grind [ensureStream]

/-- If replay is about to ask for the row of its record's stream, the answer is `id`. -/
def ReplayStage.AnsweredBy (id : ℕ) (hub : Hub M) : ReplayStage M → Prop
  | .tomb r => hub.rowOf r.item.stream = some id
  | .upsert _ | .check _ => True
  | .deliver snd =>
    match snd.stage with
    | .info => hub.rowOf snd.record.item.stream = some id
    | .resolve _ => hub.store.Live snd.record.item.stream id
    | _ => True

/-- **The condition**: whenever replay asks for the row of the item's record, it is the item's. -/
def AnsweredWithRow (x : WorkItem) (s : State M) : Action M → Prop
  | .replay _ => ∀ stage ∈ s.replay.current, stage.record.rid = x.record.rid →
      stage.AnsweredBy x.streamId s.hub
  | _ => True

instance (id : ℕ) (hub : Hub M) (stage : ReplayStage M) : Decidable (stage.AnsweredBy id hub) := by
  unfold ReplayStage.AnsweredBy
  cases stage with
  | deliver snd =>
    dsimp only
    cases snd.stage <;> infer_instance
  | _ => infer_instance

instance (x : WorkItem) (s : State M) (a : Action M) : Decidable (AnsweredWithRow x s a) := by
  induction a using Action.casesOn <;> dsimp only [AnsweredWithRow] <;> infer_instance

/-! ## The row stays with the record -/

/-- Whoever has the record of the item has it with the item's row, and so it was published. -/
structure Tied (x : WorkItem) (s : State M) : Prop where
  unshown : Unshown s
  matched : ∀ w ∈ s.hub.workers, w.Matched
  lt : x.record.rid < s.book.nextRid
  published : ∀ e ∈ s.hub.store.published, e.2.rid = x.record.rid → e.1 = x.streamId
  items : ∀ y, s.hub.Holds y → y.record.rid = x.record.rid → y.streamId = x.streamId
  requests : ∀ req ∈ s.requests, ∀ r ∈ req.records, r.rid ≠ x.record.rid
  replay : ∀ snd ∈ s.replay.sender?, snd.record.rid = x.record.rid →
    ∀ id ∈ snd.stage.streamId?, id = x.streamId

section Replays

variable {env : Env M} {s s' : State M}

theorem State.Replays.sender {ok : Bool} (h : Replays env ok s s') {snd' : Sender M}
    (hsnd : snd' ∈ s'.replay.sender?) : snd'.stage = .info ∨
      ∃ snd, s.replay.current = some (.deliver snd) ∧ snd'.record = snd.record ∧
        ((snd.stage = .info ∧ ∃ id, snd'.stage = .workerFor id ∧
            id ∈ (s.hub.streamInfo env snd.record.item.stream ok).1) ∨
          snd'.stage.streamId? = snd.stage.streamId?) := by
  have hsame {replay : Replay M} (hcurrent : replay.current = s.replay.current)
      (hsnd : snd' ∈ replay.sender?) :
      ∃ snd, s.replay.current = some (.deliver snd) ∧ snd'.record = snd.record ∧
        ((snd.stage = .info ∧ ∃ id, snd'.stage = .workerFor id ∧
            id ∈ (s.hub.streamInfo env snd.record.item.stream ok).1) ∨
          snd'.stage.streamId? = snd.stage.streamId?) := by
    grind [sender?]
  cases h with
  | stops | issues => exact .inr (hsame rfl hsnd)
  | @yields r =>
    grind [setReplay, sender?]
  | @tomb r =>
    unfold replayTomb at hsnd
    split at hsnd
    · exact .inr (hsame rfl hsnd)
    · grind [setReplay, sender?]
  | upsert =>
    unfold replayUpsert at hsnd
    split_ifs at hsnd
    · cases hsnd
    · exact .inr (hsame rfl hsnd)
  | check =>
    unfold replayCheck at hsnd
    split_ifs at hsnd
    · cases hsnd
      exact .inl rfl
    · cases hsnd
  | @deliver snd d hub hcurrent hd =>
    cases d with
    | goes snd'' =>
      cases hsnd
      grind [Delivers.streamId]
    | failed => exact .inr (hsame rfl hsnd)
    | sent | saturated | closed => cases hsnd

end Replays

theorem State.Fills.unique {y : WorkItem} (hx : s.Fills a x) (hy : s.Fills a y) : x = y := by
  cases hx with
  | request hj hwork hsender hstage =>
    cases hy with
    | request hj' hwork' hsender' hstage' =>
      grind
  | replay hcurrent hstage =>
    cases hy with
    | replay hcurrent' hstage' =>
      grind

theorem State.Fills.source (h : s.Fills a x) :
    ((∃ j ok, a = .request j ok) ∧ ∃ req ∈ s.requests, x.record ∈ req.records) ∨ (∃ ok, a = .replay ok) ∧
        ∃ snd ∈ s.replay.sender?, snd.record = x.record ∧ snd.stage.streamId? = some x.streamId := by
  cases h with
  | @request j ok r work snd infoId id i hj hwork hsender hstage =>
    refine .inl ⟨⟨j, ok, rfl⟩, r, mem_of_getElem? hj, ?_⟩
    rw [Request.records_sending hwork hsender]
    exact mem_cons_self
  | @replay ok snd id i hcurrent hstage =>
    refine .inr ⟨⟨ok, rfl⟩, snd, ?_, rfl, by rw [hstage]; rfl⟩
    rw [sender?, hcurrent]
    rfl

theorem Hub.holds_of_permit {blocking ok : Bool} {hub' : Hub M} {d : Delivery M} {i : ℕ}
    (hstage : snd.stage = .permit id i) (h : hub.deliver env blocking ok snd = some (d, hub')) :
    hub'.Holds ⟨snd.record, id⟩ := by
  simp only [deliver, hstage] at h
  split at h
  · cases h
  · next w hw =>
      cases h
      exact ⟨_, mem_set (List.getElem?_eq_some_iff.mp hw).1 _, .inl (mem_append_right _ mem_cons_self)⟩

theorem State.Fills.holds (h : s.Fills a x) (hstep : s.step env a = some s') : s'.hub.Holds x := by
  cases h with
  | request hj hwork hsender hstage =>
    simp only [step, hj, bind_some, requestStep, hwork, hsender] at hstep
    obtain ⟨⟨d, hub⟩, hd, rfl⟩ := map_eq_some_iff.mp hstep
    rw [afterDelivery_hub]
    exact holds_of_permit hstage hd
  | replay hcurrent hstage =>
    simp only [step, replayStep, hcurrent] at hstep
    split_ifs at hstep
    obtain ⟨⟨d, hub⟩, hd, rfl⟩ := map_eq_some_iff.mp hstep
    rw [afterReplayDelivery_hub]
    exact holds_of_permit hstage hd

theorem Replay.mem_records_of_sender {r : Replay M} (h : snd ∈ r.sender?) : snd.record ∈ r.records := by
  unfold sender? at h
  split at h
  · next snd' hcurrent =>
      cases h
      rw [records_of_current hcurrent]
      exact mem_cons_self
  · cases h

theorem Hub.Holds.mem_records (h : hub.Holds x) : x.record ∈ hub.records := by
  obtain ⟨w, hw, hx⟩ := h
  exact mem_flatMap.mpr ⟨w, hw, Worker.holds_records hx⟩

namespace Tied

variable {env : Env M} {s s' : State M} {x : WorkItem}

theorem restart (h : Tied x s) : Tied x s.restart where
  unshown := h.unshown.restart
  matched w hw := by cases hw
  lt := h.lt
  published := h.published
  items y hy := by
    obtain ⟨w, hw, -⟩ := hy
    cases hw
  requests req hreq := by cases hreq
  replay snd hsnd := by cases hsnd

theorem replays (h : Tied x s) {ok : Bool} (hcond : AnsweredWithRow x s (.replay ok))
    (hreplays : Replays env ok s s') : ∀ snd ∈ s'.replay.sender?,
      snd.record.rid = x.record.rid → ∀ id ∈ snd.stage.streamId?, id = x.streamId := by
  intro snd' hsnd hrid id hid
  obtain hinfo | ⟨snd, hcurrent, hrecord, ⟨hstage, id', hstage', hanswer⟩ | hkeeps⟩ :=
    hreplays.sender hsnd
  · rw [hinfo] at hid
    cases hid
  · rw [hstage'] at hid
    cases hid
    have hanswered := hcond _ hcurrent (by rw [← hrid, hrecord]; rfl)
    grind [streamInfo_of_rowOf, AnsweredBy]
  · refine h.replay snd ?_ (hrecord ▸ hrid) id (hkeeps ▸ hid)
    rw [sender?, hcurrent]
    rfl

variable {a : Action M}

theorem senders (h : Tied x s) (hcond : AnsweredWithRow x s a) (hstep : s.step env a = some s')
    (hcrash : a ≠ .crash) : ∀ snd ∈ s'.replay.sender?,
      snd.record.rid = x.record.rid → ∀ id ∈ snd.stage.streamId?, id = x.streamId := by
  cases moves_of_step hstep with
  | outside | append | appendFails | flushStream | unlink => exact h.replay
  | request _ hserves =>
    obtain ⟨r', entries, hmove⟩ := hserves.move
    rw [hmove.replay]
    exact h.replay
  | replay _ hreplays => exact h.replays hcond hreplays
  | worker =>
    rw [apply_replay]
    exact h.replay
  | crash => exact absurd rfl hcrash

theorem step (h : Tied x s) (hcond : AnsweredWithRow x s a) (hstep : s.step env a = some s')
    (hcrash : a ≠ .crash) : Tied x s' := by
  have hsurfaces := Surfaces.of_moves hstep hcrash
  have hitems (y : WorkItem) (hy : s'.hub.Holds y) (hrid : y.record.rid = x.record.rid) :
      y.streamId = x.streamId := by
    rcases holds_of_step h.matched hstep hy with hy | hfills
    · exact h.items y hy hrid
    · rcases hfills.source with ⟨-, req, hreq, hr⟩ | ⟨-, snd, hsnd, hrecord, hid⟩
      · exact absurd hrid (h.requests req hreq _ hr)
      · exact h.replay snd hsnd (hrecord ▸ hrid) _ hid
  refine ⟨h.unshown.next hstep, matched_step h.matched hstep,
    h.lt.trans_le hsurfaces.nextRid, fun e he hrid => ?_, hitems, fun req hreq r hr => ?_,
    h.senders hcond hstep hcrash⟩
  · obtain ⟨new, hpublished, hnew⟩ := published_of_step h.matched hstep
    rw [hpublished] at he
    rcases mem_append.mp he with he | he
    · exact h.published e he hrid
    · grind
  · rcases hsurfaces.requests req hreq r hr with ⟨req, hreq, hr⟩ | hnew
    · exact h.requests req hreq r hr
    · exact (h.lt.trans_le hnew).ne'

theorem next (h : Tied x s) (hcond : AnsweredWithRow x s a) (hstep : s.step env a = some s') :
    Tied x s' := by
  by_cases hcrash : a = .crash
  · subst hcrash
    cases hstep
    exact h.restart
  · exact h.step hcond hstep hcrash

theorem accept (hunshown : Unshown s) (hmatched : ∀ w ∈ s.hub.workers, w.Matched) {j : ℕ} {ok : Bool}
    (hfills : s.Fills (.request j ok) x) (hstep : s.step env (.request j ok) = some s') :
    Tied x s' := by
  obtain ⟨-, req, hreq, hr⟩ | ⟨⟨ok, hreplay⟩, -⟩ := hfills.source
  swap
  · cases hreplay
  have hnext := hunshown.next hstep
  have hheld : s'.hub.Holds x := hfills.holds hstep
  have hmem : x.record ∈ s'.held := by
    grind [Holds.mem_records, held]
  have hmatched' := matched_step hmatched hstep
  refine ⟨hnext, hmatched', hnext.housed.lt _ hmem, fun e he hrid => ?_, fun y hy hrid => ?_,
    fun req hreq r hr hrid => ?_, fun snd hsnd hrid => ?_⟩
  · obtain ⟨new, hpublished, hnew⟩ := published_of_step hmatched hstep
    rw [hpublished] at he
    rcases mem_append.mp he with he | he
    · exact absurd (.inl ⟨e, he, hrid⟩) (hunshown.requests req hreq _ hr)
    · obtain ⟨y, hy, rfl⟩ := List.mem_map.mp he
      obtain ⟨-, i, outcome, w, ha, -⟩ := hnew y hy
      cases ha
  · rcases holds_of_step hmatched hstep hy with hy | hy
    · exact absurd hrid (hunshown.housed.request_ne hreq hr (.inr hy.mem_records))
    · rw [hfills.unique hy]
  · exact hnext.housed.request_ne hreq hr (.inr hheld.mem_records) hrid.symm
  · refine absurd hrid.symm (hnext.housed.replay_ne_hub ?_ hheld.mem_records)
    exact mem_records_of_sender hsnd

end Tied

/-! ## Nobody creates a row -/

def OnBehalf (rid : ℕ) (s : State M) : Action M → Prop
  | .worker _ _ => True
  | .replay _ => ∃ stage ∈ s.replay.current, stage.record.rid = rid
  | _ => False

def NoneRevived (env : Env M) (rid : ℕ) (s : State M) (a : Action M) : Prop :=
  OnBehalf rid s a → ∀ s', s.step env a = some s' → s'.hub.store.nextId = s.hub.store.nextId

theorem Metastore.ensureStream_of_live {store : Metastore M} (h : store.Live name id) :
    (store.ensureStream env name).2 = store := by
  obtain ⟨row, hrow, -⟩ := map_eq_some_iff.mp h
  simp [ensureStream, hrow]

theorem noneRevived_of_replays {ok : Bool} (id : ℕ)
    (hanswered : ∀ stage ∈ s.replay.current, stage.AnsweredBy id s.hub) (h : Replays env ok s s') :
    s'.hub.store.nextId = s.hub.store.nextId := by
  cases h with
  | stops | yields | issues => rfl
  | @tomb r hcurrent =>
    have hstore := (streamInfo_of_rowOf env ok (hanswered _ hcurrent)).2
    unfold replayTomb
    rcases hinfo : s.hub.streamInfo env r.item.stream ok with ⟨_ | id, hub⟩
    all_goals
      rw [hinfo] at hstore
      exact congrArg nextId hstore
  | upsert =>
    unfold replayUpsert
    split_ifs <;> rfl
  | check => rw [replayCheck_hub]
  | @deliver snd d hub hcurrent hd =>
    rw [afterReplayDelivery_hub]
    have hstage := hanswered _ hcurrent
    cases hd with
    | info hinfo heq | infoFails hinfo heq =>
      grind [streamInfo_of_rowOf, AnsweredBy]
    | resolves hresolve =>
      grind [ensureStream_of_live, AnsweredBy]
    | found | missing | locks | resolveFails | spawns | closed | retries | saturated | reserves
    | fills => rfl

theorem noneRevived_of_answered (h : AnsweredWithRow x s a) : NoneRevived env x.record.rid s a := by
  intro hbehalf s' hstep
  cases a with
  | worker i input =>
    obtain ⟨w, -, hstep⟩ := bind_eq_some_iff.mp hstep
    obtain ⟨r, -, rfl⟩ := map_eq_some_iff.mp hstep
    rw [apply_hub]
    rfl
  | replay ok =>
    obtain ⟨stage, hstage, hrid⟩ := hbehalf
    obtain ⟨-, hreplays⟩ := replays_of_replayStep hstep
    refine noneRevived_of_replays x.streamId (fun stage' hstage' => ?_) hreplays
    obtain rfl : stage = stage' := mem_unique hstage hstage'
    exact h stage hstage hrid
  | _ => exact hbehalf.elim

/-! ## An accepted item -/

def State.accepts (s : State M) (j : ℕ) : Option WorkItem :=
  (s.requests[j]?).bind fun r => r.work.bind fun work => work.sender.bind fun p =>
    match p.1.stage with
    | .permit id _ => some ⟨p.1.record, id⟩
    | _ => none

theorem State.fills_of_accepts {j : ℕ} (h : s.accepts j = some x) (ok : Bool) :
    s.Fills (.request j ok) x := by
  obtain ⟨r, hj, hrest⟩ := bind_eq_some_iff.mp h
  obtain ⟨work, hwork, hrest⟩ := bind_eq_some_iff.mp hrest
  obtain ⟨⟨snd, infoId⟩, hsender, hrest⟩ := bind_eq_some_iff.mp hrest
  split at hrest
  · next id i hstage =>
      cases hrest
      exact .request hj hwork hsender hstage
  · cases hrest

def State.RowKept (x : WorkItem) (s : State M) : Prop :=
  ∀ e ∈ s.hub.store.published, e.2.rid = x.record.rid → e.1 = x.streamId

/-- **The row of an accepted item is kept**, from the step that accepts it on, as long as replay is
answered with it: the record is published under no other row, and no step on its behalf creates one. -/
theorem accepted_row_kept {env : Env M} {before after : List (Action M)} {s₀ s₁ s : State M} {j : ℕ}
    {ok : Bool} {x : WorkItem} (hbefore : Runs.run (State.step env) State.init before = some s₀)
    (haccepts : s₀.accepts j = some x) (hstep : s₀.step env (.request j ok) = some s₁)
    (hafter : Runs.run (State.step env) s₁ after = some s)
    (hcond : Runs.Along (State.step env) (AnsweredWithRow x) s₁ after) :
    s.RowKept x ∧ Runs.Along (State.step env) (NoneRevived env x.record.rid) s₁ after := by
  have hunshown := Runs.run_invariant_always (State.step env)
    (fun _ _ _ h hstep => Unshown.next h hstep) Unshown.init hbefore
  have hmatched := Runs.run_invariant_always (State.step env)
    (fun _ _ _ h hstep => State.matched_step h hstep) State.matched_init hbefore
  have htied := Tied.accept hunshown hmatched (State.fills_of_accepts haccepts ok) hstep
  refine ⟨?_, hcond.imp (State.step env) fun _ _ => noneRevived_of_answered⟩
  exact (Runs.run_invariant (State.step env) (fun _ _ _ h hc hstep => h.next hc hstep) htied hcond
    hafter).published

/-! ## A stream re-created before the replay -/

def aboutToAccept : List (Action Unit) :=
  [.createStream "s" (), appendDoc false "a"] ++ serve 0 8

def acceptedItem : WorkItem :=
  ⟨⟨0, ⟨"s", "a", 1, false, "x"⟩, ⟨0⟩⟩, 0⟩

def replayedDoc : List (Action Unit) :=
  replays 9 ++ .worker 0 .recv :: publishes 0

theorem accepted_row_kept_replayedDoc : ∃ s₀ s₁ s,
    Runs.run (State.step plain) State.init aboutToAccept = some s₀ ∧
    s₀.accepts 0 = some acceptedItem ∧ s₀.step plain (.request 0 true) = some s₁ ∧
    Runs.run (State.step plain) s₁ (.crash :: replayedDoc) = some s ∧
    s.RowKept acceptedItem ∧ s.hub.store.published = [(0, acceptedItem.record)] ∧
    Runs.Along (State.step plain) (NoneRevived plain 0) s₁ (.crash :: replayedDoc) := by
  obtain ⟨s₀, hbefore, haccepts, s₁, hstep, hcond, s, hafter, hpublished⟩ :
      ∃ s₀, Runs.run (State.step plain) State.init aboutToAccept = some s₀ ∧
        s₀.accepts 0 = some acceptedItem ∧ ∃ s₁, s₀.step plain (.request 0 true) = some s₁ ∧
        Runs.Along (State.step plain) (AnsweredWithRow acceptedItem) s₁ (.crash :: replayedDoc) ∧
        ∃ s, Runs.run (State.step plain) s₁ (.crash :: replayedDoc) = some s ∧
          s.hub.store.published = [(0, acceptedItem.record)] := by
    decide +kernel
  have hkept := accepted_row_kept hbefore haccepts hstep hafter hcond
  exact ⟨s₀, s₁, s, hbefore, haccepts, hstep, hafter, hkept.1, hpublished, hkept.2⟩

theorem row_changes : ∃ s₀ s₁ s, run (step plain) init aboutToAccept = some s₀ ∧
    s₀.accepts 0 = some acceptedItem ∧ s₀.step plain (.request 0 true) = some s₁ ∧
    run (step plain) s₁ (.crash :: .deleteStream "s" :: .createStream "s" () :: replayedDoc)
      = some s ∧ s.hub.store.published = [(1, acceptedItem.record)] := by
  simp only [exists_and_left]
  decide +kernel

theorem stream_comes_back :
    ∃ s₀ s₁ t s, run (step plain) init aboutToAccept = some s₀ ∧
    s₀.accepts 0 = some acceptedItem ∧ s₀.step plain (.request 0 true) = some s₁ ∧
    run (step plain) s₁ (.crash :: .deleteStream "s" :: replays 2) = some t ∧
    t.step plain (.replay true) = some s ∧
    (∃ stage ∈ t.replay.current, stage.record.rid = acceptedItem.record.rid) ∧
    s.hub.store.nextId ≠ t.hub.store.nextId := by
  simp only [exists_and_left]
  decide +kernel

/-- Without the condition neither half holds. -/
theorem replayed_under_new_row :
    (¬ ∀ (before after : List (Action Unit)) (s₀ s₁ s : State Unit) (j : ℕ) (ok : Bool) (x : WorkItem),
      Runs.run (State.step plain) State.init before = some s₀ → s₀.accepts j = some x →
      s₀.step plain (.request j ok) = some s₁ → Runs.run (State.step plain) s₁ after = some s →
      s.RowKept x) ∧
    ¬ ∀ (before after : List (Action Unit)) (s₀ s₁ s : State Unit) (j : ℕ) (ok : Bool) (x : WorkItem),
      Runs.run (State.step plain) State.init before = some s₀ → s₀.accepts j = some x →
      s₀.step plain (.request j ok) = some s₁ → Runs.run (State.step plain) s₁ after = some s →
      Runs.Along (State.step plain) (NoneRevived plain x.record.rid) s₁ after := by
  constructor
  · intro hclaim
    obtain ⟨s₀, s₁, s, hbefore, haccepts, hstep, hafter, hpublished⟩ := row_changes
    have hkept := hclaim _ _ _ _ _ _ _ _ hbefore haccepts hstep hafter
    have hrow := hkept (1, acceptedItem.record) (by simp [hpublished]) rfl
    cases hrow
  · intro hclaim
    obtain ⟨s₀, s₁, t, s, hbefore, haccepts, hstep, hrun, hreplay, hbehalf, hcreated⟩ :=
      stream_comes_back
    have hafter : Runs.run (State.step plain) s₁
        ((.crash :: .deleteStream "s" :: replays 2) ++ [.replay true]) = some s := by
      rw [Runs.run_append, hrun]
      simpa using hreplay
    have halong := hclaim _ _ _ _ _ _ _ _ hbefore haccepts hstep hafter
    exact hcreated (halong.last (State.step plain) hrun hbehalf s hreplay)

end RSearch.Pipeline
