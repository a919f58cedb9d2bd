import RSearch.Pipeline.System

/-!
# What a flush drops

A flush confirms an item without publishing it if the document could not be indexed, the stream is
deleted, or the item was accepted against another row than the worker's.  In the last two the item's row
ought to be retired: created, and no longer live (`Metastore.Later`).
-/

namespace RSearch.Pipeline

open List Option Wal State Metastore Request

variable {M : Type}

/-! ## Rows -/

namespace Metastore

def Live (store : Metastore M) (name : String) (id : ℕ) : Prop :=
  (store.streams name).map (·.id) = some id

instance (store : Metastore M) (name : String) (id : ℕ) : Decidable (store.Live name id) :=
  inferInstanceAs (Decidable (_ = _))

structure Retired (store : Metastore M) (name : String) (id : ℕ) : Prop where
  created : id < store.nextId
  not_live : ¬ store.Live name id

/-- The metastore moves on: a row that is live was live before or is new, and what is published stays
published. -/
structure Later (store store' : Metastore M) : Prop where
  nextId : store.nextId ≤ store'.nextId
  live : ∀ name id, store'.Live name id → store.Live name id ∨ store.nextId ≤ id
  published : store.published ⊆ store'.published

def RowsOk (store : Metastore M) : Prop :=
  ∀ name id, store.Live name id → id < store.nextId

variable {store store' : Metastore M} {name : String} {id : ℕ}

def NoneRevived (store store' : Metastore M) : Prop :=
  ∀ name id, store'.Live name id → store.Live name id

theorem Later.of_noneRevived (h : store.NoneRevived store') (hnext : store'.nextId = store.nextId)
    (hpublished : store.published ⊆ store'.published) : store.Later store' where
  nextId := hnext.ge
  live name id hlive := .inl (h name id hlive)
  published := hpublished

theorem RowsOk.of_noneRevived (h : store.NoneRevived store') (hnext : store'.nextId = store.nextId)
    (hrows : store.RowsOk) : store'.RowsOk :=
  fun name id hlive => hnext ▸ hrows name id (h name id hlive)

theorem Later.refl (store : Metastore M) : store.Later store :=
  .of_noneRevived (fun _ _ h => h) rfl (Subset.refl _)

theorem Retired.mono (h : store.Retired name id) (hlater : store.Later store') :
    store'.Retired name id where
  created := h.created.trans_le hlater.nextId
  not_live hlive := by
    rcases hlater.live name id hlive with hlive | hnew
    · exact h.not_live hlive
    · exact absurd h.created (Nat.not_lt.mpr hnew)

theorem live_update {row : Option (StreamRow M)} {streams : String → Option (StreamRow M)} {nextId : ℕ}
    {tombstones : List Tombstone} {published : List (ℕ × LogRecord)} {name' : String} :
    Live ⟨Function.update streams name row, nextId, tombstones, published⟩ name' id ↔
      if name' = name then row.map (·.id) = some id else (streams name').map (·.id) = some id := by
  grind [Live]

theorem later_create (store : Metastore M) (name : String) (mapping : M) :
    store.Later (store.create name mapping) where
  nextId := Nat.le_succ _
  live name' id h := by
    rw [create, live_update] at h
    split_ifs at h with hname
    · exact .inr (Option.some.inj h).le
    · exact .inl h
  published := Subset.refl _

theorem rowsOk_create (h : store.RowsOk) (name : String) (mapping : M) :
    (store.create name mapping).RowsOk := by
  intro name' id hlive
  rw [create, live_update] at hlive
  split_ifs at hlive with hname
  · exact Nat.lt_succ_of_le (Option.some.inj hlive).ge
  · exact (h name' id hlive).trans (Nat.lt_succ_self _)

theorem ensureStream_spec (env : Env M) (h : store.RowsOk) (name : String) :
    store.Later (store.ensureStream env name).2 ∧ (store.ensureStream env name).2.RowsOk ∧
      (store.ensureStream env name).1.id < (store.ensureStream env name).2.nextId := by
  unfold ensureStream
  split
  · next row hrow => exact ⟨.refl store, h, h name row.id (by rw [Live, hrow]; rfl)⟩
  · exact ⟨later_create .., rowsOk_create h _ _, Nat.lt_succ_self _⟩

theorem noneRevived_delete (store : Metastore M) (name : String) :
    store.NoneRevived (store.delete name) := by
  intro name' id h
  rw [delete, live_update] at h
  split_ifs at h
  · cases h
  · exact h

theorem noneRevived_putMapping (store : Metastore M) (name : String) (mapping : M) :
    store.NoneRevived (store.putMapping name mapping) := by
  intro name' id h
  rw [putMapping, live_update] at h
  split_ifs at h with hname
  · subst hname
    rw [Option.map_map] at h
    exact h
  · exact h

end Metastore

/-! ## A worker and the rows of its items -/

structure ItemOk (store : Metastore M) (name : String) (x : WorkItem) : Prop where
  stream : x.record.item.stream = name
  created : x.streamId < store.nextId

variable {store store' : Metastore M} {env : Env M} {current : Prop}

theorem ItemOk.mono {name : String} {x : WorkItem} (h : ItemOk store name x)
    (hlater : store.Later store') : ItemOk store' name x where
  stream := h.stream
  created := h.created.trans_le hlater.nextId

/-- What a flush of stream `name`, bound to row `bound`, knows when it stands at a stage.  What it
knows of the stale items depends on the lookups: it is claimed if they are `current`. -/
def StageOk (env : Env M) (current : Prop) (store : Metastore M) (name : String) (bound : ℕ)
    (f : Flush M) : Prop :=
  match f.stage with
  | .deleted => ∀ x ∈ f.taken, store.Retired name x.streamId
  | .sift => current → ∀ x ∈ f.batch, x.streamId ≠ bound → store.Retired name x.streamId
  | .confirm mapping =>
    ∀ x ∈ f.batch, env.indexable mapping x.record → ∃ id, (id, x.record) ∈ store.published
  | .lookup | .build => True

structure FlushOk (env : Env M) (current : Prop) (store : Metastore M) (name : String) (bound : ℕ)
    (f : Flush M) : Prop where
  taken : ∀ x ∈ f.taken, ItemOk store name x
  owned : ∀ x ∈ f.owned, ItemOk store name x
  stage : StageOk env current store name bound f

structure WorkerOk (env : Env M) (current : Prop) (store : Metastore M) (w : Worker M) : Prop where
  queue : ∀ x, .doc x ∈ w.queue → ItemOk store w.name x
  buffer : ∀ x ∈ w.buffer, ItemOk store w.name x
  flush : ∀ f last, w.run = .flushing f last → FlushOk env current store w.name w.target.id f

def Fate.streamId? : Fate M → Option ℕ
  | published id | unindexable id _ | stale id | deleted id => some id
  | rejected | corrupt | undelivered => none

/-- **Why a flush has confirmed an item**: it is published, its document could not be indexed, or the
row it was accepted against is retired. -/
def Justified (env : Env M) (current : Prop) (store : Metastore M) (r : LogRecord) : Fate M → Prop
  | .published _ => ∃ row, (row, r) ∈ store.published
  | .unindexable _ mapping => env.indexable mapping r = false
  | .stale id => current → store.Retired r.item.stream id
  | .deleted id => store.Retired r.item.stream id
  | .rejected | .corrupt | .undelivered => True

theorem Justified.mono {r : LogRecord} {fate : Fate M} (h : Justified env current store r fate)
    (hlater : store.Later store') : Justified env current store' r fate := by
  cases fate with
  | published id =>
    obtain ⟨row, hrow⟩ := h
    exact ⟨row, hlater.published hrow⟩
  | unindexable id mapping => exact h
  | stale id => exact fun hcurrent => (h hcurrent).mono hlater
  | deleted id => exact Retired.mono h hlater
  | rejected | corrupt | undelivered => trivial

theorem WorkerOk.mono {w : Worker M} (h : WorkerOk env current store w) (hlater : store.Later store') :
    WorkerOk env current store' w where
  queue x hx := (h.queue x hx).mono hlater
  buffer x hx := (h.buffer x hx).mono hlater
  flush f last hrun := by
    have hf := h.flush f last hrun
    refine ⟨fun x hx => (hf.taken x hx).mono hlater, fun x hx => (hf.owned x hx).mono hlater, ?_⟩
    have hstage := hf.stage
    unfold StageOk at hstage ⊢
    split
    · next hs =>
        rw [hs] at hstage
        exact fun x hx => (hstage x hx).mono hlater
    · next hs =>
        rw [hs] at hstage
        exact fun hcurrent x hx hne => (hstage hcurrent x hx hne).mono hlater
    · next mapping hs =>
        rw [hs] at hstage
        intro x hx hindexable
        obtain ⟨id, hid⟩ := hstage x hx hindexable
        exact ⟨id, hlater.published hid⟩
    · trivial
    · trivial

/-- **The condition on a failed lookup**: the items of other rows than the one the worker is bound to
are not items of the live row. -/
def Worker.BindingCurrent (store : Metastore M) (w : Worker M) : Prop :=
  match w.run with
  | .flushing f _ => ∀ x ∈ f.batch, x.streamId ≠ w.target.id → ¬ store.Live w.name x.streamId
  | _ => True

instance (store : Metastore M) (w : Worker M) : Decidable (w.BindingCurrent store) :=
  Worker.decideFlushing
    (fun f => ∀ x ∈ f.batch, x.streamId ≠ w.target.id → ¬ store.Live w.name x.streamId) w.run

def Metastore.publish (store : Metastore M) (id : ℕ) (docs : List WorkItem) : Metastore M :=
  { store with published := store.published ++ docs.map fun x => (id, x.record) }

theorem Metastore.later_publish (store : Metastore M) (id : ℕ) (docs : List WorkItem) :
    store.Later (store.publish id docs) :=
  .of_noneRevived (fun _ _ h => h) rfl (subset_append_left ..)

namespace Worker

variable {env : Env M} {current : Prop} {store : Metastore M} {w w' : Worker M} {eff : Effect M}
  {f : Flush M} {last : Bool} {input : Input}

/-- What is proved of a worker's step: the worker stays well formed in the metastore it leaves, and
whatever it confirms is justified. -/
structure StepOk (env : Env M) (current : Prop) (store : Metastore M) (w w' : Worker M)
    (eff : Effect M) : Prop where
  name : w'.name = w.name
  worker : WorkerOk env current (store.publish w.target.id eff.publish) w'
  justified : ∀ e ∈ eff.confirm.getD [], Justified env current store e.1 e.2

theorem StepOk.of_worker (hname : w'.name = w.name) (hworker : WorkerOk env current store w')
    (hconfirm : eff.confirm = none) : StepOk env current store w w' eff where
  name := hname
  worker := hworker.mono (store.later_publish _ _)
  justified e he := by
    rw [hconfirm] at he
    cases he

theorem ok_endFlush (h : WorkerOk env current store w) (last : Bool) :
    WorkerOk env current store (w.endFlush last) where
  queue := h.queue
  buffer := h.buffer
  flush f last' hrun := by
    cases last <;> cases hrun

theorem ok_startFlush (h : WorkerOk env current store w) (last : Bool) :
    WorkerOk env current store (w.startFlush last) where
  queue := h.queue
  buffer x hx := by cases hx
  flush f last' hrun := by
    cases hrun
    exact ⟨h.buffer, h.buffer, trivial⟩

theorem ok_flushing {target : StreamRow M} {f' : Flush M} (h : WorkerOk env current store w)
    (hflush : FlushOk env current store w.name target.id f') :
    WorkerOk env current store { w with target, run := .flushing f' last } where
  queue := h.queue
  buffer := h.buffer
  flush f'' last' hrun := by
    cases hrun
    exact hflush

theorem ok_drain {queue : List Msg} {msg : Msg} (hqueue : w.queue = msg :: queue)
    (h : WorkerOk env current store w) : WorkerOk env current store ({ w with queue }.drain msg) := by
  have htail x (hx : .doc x ∈ queue) : ItemOk store w.name x :=
    h.queue x (hqueue ▸ mem_cons_of_mem msg hx)
  cases msg with
  | flush => exact ⟨htail, h.buffer, h.flush⟩
  | doc x =>
    refine ⟨htail, fun y hy => ?_, h.flush⟩
    rcases mem_append.mp hy with hy | hy
    · exact h.buffer y hy
    · rw [mem_singleton.mp hy]
      exact h.queue x (hqueue ▸ mem_cons_self)

theorem name_drain (w : Worker M) (msg : Msg) : (w.drain msg).name = w.name := by
  cases msg <;> rfl

theorem stepOk_lookup (hcond : current → input = .lookup false → w.BindingCurrent store)
    (h : WorkerOk env current store w) (hrun : w.run = .flushing f last) {answers : Bool}
    (hinput : input = .lookup answers)
    (heq : w.lookup f last (store.streams w.name) answers = (w', eff)) :
    StepOk env current store w w' eff := by
  have hf := h.flush f last hrun
  cases answers with
  | false =>
    cases heq
    refine .of_worker rfl (ok_flushing h ⟨hf.taken, hf.owned, fun hcurrent x hx hne => ?_⟩) rfl
    have hbinding := hcond hcurrent hinput
    rw [BindingCurrent, hrun] at hbinding
    exact ⟨(hf.owned x (Flush.mem_owned hx)).created, hbinding x hx hne⟩
  | true =>
    cases hrow : store.streams w.name with
    | none =>
      rw [hrow] at heq
      cases heq
      refine .of_worker rfl (ok_flushing h ⟨hf.taken, hf.owned, fun x hx => ?_⟩) rfl
      exact ⟨(hf.taken x hx).created, by simp [Live, hrow]⟩
    | some row =>
      rw [hrow] at heq
      cases heq
      refine .of_worker rfl (ok_flushing h ⟨hf.taken, hf.owned, fun _ x hx hne => ?_⟩) rfl
      refine ⟨(hf.owned x (Flush.mem_owned hx)).created, ?_⟩
      simpa [Live, hrow] using Ne.symm hne

theorem stepOk_giveUp (h : WorkerOk env current store w) (hrun : w.run = .flushing f last)
    (hstage : f.stage = .deleted) (heq : w.giveUp f last = (w', eff)) :
    StepOk env current store w w' eff := by
  have hf := h.flush f last hrun
  have hretired := hf.stage
  rw [StageOk, hstage] at hretired
  cases heq
  refine ⟨rfl, (ok_endFlush h last).mono (store.later_publish _ _), fun e he => ?_⟩
  obtain ⟨x, hx, rfl⟩ := List.mem_map.mp he
  rw [Justified, (hf.taken x hx).stream]
  exact hretired x hx

theorem stepOk_sift (h : WorkerOk env current store w) (hrun : w.run = .flushing f last)
    (hstage : f.stage = .sift) (heq : w.sift f last = (w', eff)) :
    StepOk env current store w w' eff := by
  have hf := h.flush f last hrun
  have hretired := hf.stage
  rw [StageOk, hstage] at hretired
  have hstale : ∀ e ∈ (w.stale f).map fun x => (x.record, (.stale x.streamId : Fate M)),
      Justified env current store e.1 e.2 := by
    intro e he
    obtain ⟨x, hx, rfl⟩ := List.mem_map.mp he
    obtain ⟨hbatch, hne⟩ := mem_filter.mp hx
    rw [Justified, (hf.owned x (Flush.mem_owned hbatch)).stream]
    grind
  have hlive : ∀ x ∈ w.live f, ItemOk store w.name x := fun x hx =>
    hf.owned x (Flush.mem_owned (mem_of_mem_filter hx))
  unfold sift at heq
  split_ifs at heq <;> cases heq
  · exact .of_worker rfl (ok_flushing h ⟨hf.taken, hf.owned, trivial⟩) rfl
  · exact ⟨rfl, (ok_endFlush h last).mono (store.later_publish _ _), hstale⟩
  · refine ⟨rfl, WorkerOk.mono (ok_flushing h ?_) (store.later_publish _ _), hstale⟩
    exact ⟨hf.taken, hlive, trivial⟩

theorem stepOk_finish (h : WorkerOk env current store w) {fate : WorkItem → Fate M}
    (hfate : ∀ x ∈ f.batch, Justified env current store x.record (fate x))
    (heq : w.finish f last fate = (w', eff)) : StepOk env current store w w' eff := by
  cases heq
  refine ⟨rfl, (ok_endFlush h last).mono (store.later_publish _ _), fun e he => ?_⟩
  grind

theorem stepOk_build (h : WorkerOk env current store w) (hrun : w.run = .flushing f last)
    {outcome : BuildOutcome} (heq : w.build env f last outcome = (w', eff)) :
    StepOk env current store w w' eff := by
  have hf := h.flush f last hrun
  cases outcome with
  | ok =>
    simp only [build] at heq
    split_ifs at heq with hdocs
    · refine stepOk_finish h (fun x hx => ?_) heq
      exact Bool.eq_false_iff.mpr (filter_eq_nil_iff.mp hdocs x hx)
    · cases heq
      have hlater := store.later_publish w.target.id (docs env w.target.mapping f)
      refine ⟨rfl, ok_flushing (h.mono hlater) ⟨fun x hx => (hf.taken x hx).mono hlater,
        fun x hx => (hf.owned x hx).mono hlater, fun x hx hindexable => ?_⟩, by simp⟩
      -- the split holds every indexable document of the batch
      refine ⟨w.target.id, mem_append_right _ (List.mem_map.mpr ⟨x, ?_, rfl⟩)⟩
      exact mem_filter.mpr ⟨hx, hindexable⟩
  | failed | committed | aborted =>
    cases heq
    exact .of_worker rfl (ok_flushing h ⟨hf.taken, hf.owned, trivial⟩) rfl

theorem stepOk_confirmBatch (h : WorkerOk env current store w) (hrun : w.run = .flushing f last)
    {mapping : M} (hstage : f.stage = .confirm mapping)
    (heq : w.confirmBatch env f last mapping = (w', eff)) : StepOk env current store w w' eff := by
  have hpublished := (h.flush f last hrun).stage
  rw [StageOk, hstage] at hpublished
  refine stepOk_finish h (fun x hx => ?_) heq
  split_ifs with hindexable
  · exact hpublished x hx hindexable
  · exact Bool.eq_false_iff.mpr hindexable

theorem step_rows (hcond : current → input = .lookup false → w.BindingCurrent store)
    (h : WorkerOk env current store w)
    (hstep : w.step env (store.streams w.name) input = some (w', eff)) :
    StepOk env current store w w' eff := by
  obtain ⟨msg, queue, hqueue, rfl, hmove⟩ | ⟨-, -, rfl, rfl⟩ | ⟨-, rfl, rfl⟩ |
    ⟨-, -, -, rfl, rfl⟩ | ⟨hstart, rfl⟩ | ⟨f, last, hrun, hflush⟩ := step_cases hstep
  · have hdrain := ok_drain hqueue h
    have hname := name_drain { w with queue } msg
    rcases hmove with ⟨-, rfl⟩ | ⟨-, rfl⟩
    · rcases receive_eq env { w with queue } msg with heq | heq
      · rw [heq]
        exact .of_worker hname hdrain rfl
      · rw [heq]
        exact .of_worker hname (ok_startFlush hdrain false) rfl
    · exact .of_worker hname hdrain rfl
  · exact .of_worker rfl ⟨h.queue, h.buffer, fun _ _ hrun => by cases hrun⟩ rfl
  · exact .of_worker rfl ⟨h.queue, h.buffer, fun _ _ hrun => by cases hrun⟩ rfl
  · exact .of_worker rfl ⟨h.queue, h.buffer, fun _ _ hrun => by cases hrun⟩ rfl
  · rcases hstart with ⟨-, rfl⟩ | ⟨-, -, rfl⟩ <;> exact .of_worker rfl (ok_startFlush h _) rfl
  · obtain ⟨-, answers, hinput, heq⟩ | ⟨hstage, heq⟩ | ⟨hstage, heq⟩ | ⟨-, outcome, -, heq⟩ |
      ⟨mapping, hstage, heq⟩ := flushStep_cases hflush
    · exact stepOk_lookup hcond h hrun hinput heq
    · exact stepOk_giveUp h hrun hstage heq
    · exact stepOk_sift h hrun hstage heq
    · exact stepOk_build h hrun heq
    · exact stepOk_confirmBatch h hrun hstage heq

end Worker

/-! ## Senders -/

def Hub.nameOf (hub : Hub M) (i : ℕ) : Option String :=
  (hub.workers[i]?).map Worker.name

/-- The sender's row was created, and the worker it has a sender of is one of its stream. -/
def SenderOk (hub : Hub M) (snd : Sender M) : Prop :=
  match snd.stage with
  | .info => True
  | .workerFor id | .waitCreate id | .resolve id | .spawn id _ => id < hub.store.nextId
  | .send id i | .permit id i =>
    id < hub.store.nextId ∧ hub.nameOf i = some snd.record.item.stream

structure HubOk (env : Env M) (current : Prop) (hub : Hub M) : Prop where
  rows : hub.store.RowsOk
  cache : ∀ name id, hub.cache name = some id → id < hub.store.nextId
  route : ∀ name i, hub.route name = some i → hub.nameOf i = some name
  workers : ∀ w ∈ hub.workers, WorkerOk env current hub.store w

/-- The hub moves on: the metastore does, and a worker stays the worker of its stream. -/
structure Hub.Later (hub hub' : Hub M) : Prop where
  store : hub.store.Later hub'.store
  names : ∀ i name, hub.nameOf i = some name → hub'.nameOf i = some name

theorem SenderOk.mono {hub hub' : Hub M} {snd : Sender M} (h : SenderOk hub snd)
    (hlater : hub.Later hub') : SenderOk hub' snd := by
  have hnext := hlater.store.nextId
  unfold SenderOk at h ⊢
  split
  · trivial
  all_goals
    next hs =>
      rw [hs] at h
      first
        | exact h.trans_le hnext
        | exact ⟨h.1.trans_le hnext, hlater.names _ _ h.2⟩

namespace Hub

variable {env : Env M} {current : Prop} {hub hub' : Hub M} {snd : Sender M} {d : Delivery M}
  {blocking ok : Bool}

theorem Later.of_workers (hstore : hub.store.Later hub'.store) (hworkers : hub'.workers = hub.workers) :
    hub.Later hub' where
  store := hstore
  names i name h := by rwa [nameOf, hworkers]

theorem Later.refl (hub : Hub M) : hub.Later hub :=
  .of_workers (.refl _) rfl

theorem ok_of_store (h : HubOk env current hub) (hstore : hub.store.Later hub'.store)
    (hrows : hub'.store.RowsOk) (hcache : ∀ name id, hub'.cache name = some id →
      hub.cache name = some id ∨ id < hub'.store.nextId)
    (hroute : ∀ name i, hub'.route name = some i → hub.route name = some i)
    (hworkers : hub'.workers = hub.workers) :
    HubOk env current hub' where
  rows := hrows
  cache name id hid := by
    rcases hcache name id hid with hid | hid
    · exact (h.cache name id hid).trans_le hstore.nextId
    · exact hid
  route name i hi := by
    rw [nameOf, hworkers]
    exact h.route name i (hroute name i hi)
  workers w hw := by
    rw [hworkers] at hw
    exact (h.workers w hw).mono hstore

variable {i : ℕ} {w w' : Worker M}

theorem nameOf_setWorker (hw : hub.workers[i]? = some w) (hname : w'.name = w.name) (j : ℕ) :
    (hub.setWorker i w').nameOf j = hub.nameOf j := by
  grind [setWorker, nameOf]

theorem ok_setWorker (h : HubOk env current hub) (hw : hub.workers[i]? = some w)
    (hok : WorkerOk env current hub.store w') (hname : w'.name = w.name) :
    HubOk env current (hub.setWorker i w') ∧ hub.Later (hub.setWorker i w') := by
  have hnames := nameOf_setWorker hw hname
  refine ⟨⟨h.rows, h.cache, fun name j hj => ?_, fun v hv => ?_⟩, ⟨.refl _, fun j name hj => ?_⟩⟩
  · exact (hnames j).trans (h.route name j hj)
  · rcases mem_or_eq_of_mem_set hv with hv | rfl
    · exact h.workers v hv
    · exact hok
  · exact (hnames j).trans hj

theorem ok_push (h : HubOk env current hub) (hw : hub.workers[i]? = some w) (msg : Msg)
    (hmsg : ∀ x, msg = .doc x → ItemOk hub.store w.name x) (permits : ℕ) :
    HubOk env current (hub.setWorker i { w with queue := w.queue ++ [msg], permits }) ∧
      hub.Later (hub.setWorker i { w with queue := w.queue ++ [msg], permits }) := by
  have hw' := h.workers w (mem_of_getElem? hw)
  refine ok_setWorker h hw ⟨fun x hx => ?_, hw'.buffer, hw'.flush⟩ rfl
  rcases mem_append.mp hx with hx | hx
  · exact hw'.queue x hx
  · grind

theorem streamInfo_ok (h : HubOk env current hub) (name : String) (ok : Bool) :
    HubOk env current (hub.streamInfo env name ok).2 ∧ hub.Later (hub.streamInfo env name ok).2 ∧
      ∀ id ∈ (hub.streamInfo env name ok).1, id < (hub.streamInfo env name ok).2.store.nextId := by
  unfold streamInfo
  split
  · next id hid =>
      refine ⟨h, .refl hub, ?_⟩
      rintro _ ⟨⟩
      exact h.cache name id hid
  · split_ifs
    · obtain ⟨hlater, hrows, hrow⟩ := ensureStream_spec env h.rows name
      refine ⟨ok_of_store h hlater hrows (fun name' id hid => ?_) (fun _ _ h => h) rfl,
        .of_workers hlater rfl, ?_⟩
      · grind
      · rintro _ ⟨⟩
        exact hrow
    · exact ⟨h, .refl hub, by simp⟩

theorem ok_spawn (h : HubOk env current hub) (name : String) (row : StreamRow M) :
    HubOk env current (hub.spawn name row) ∧ hub.Later (hub.spawn name row) ∧
      (hub.spawn name row).nameOf hub.workers.length = some name := by
  have hnames i name' (hi : hub.nameOf i = some name') :
      (hub.spawn name row).nameOf i = some name' := by
    grind [spawn, nameOf]
  have hnew : (hub.spawn name row).nameOf hub.workers.length = some name := by
    simp [nameOf, spawn]
  refine ⟨⟨h.rows, h.cache, fun name' i hi => ?_, fun w hw => ?_⟩, ⟨.refl _, hnames⟩, hnew⟩
  · simp only [spawn] at hi
    by_cases hname : name' = name
    · grind
    · rw [Function.update_of_ne hname] at hi
      exact hnames i name' (h.route name' i hi)
  · rcases mem_append.mp hw with hw | hw
    · exact h.workers w hw
    · rw [mem_singleton.mp hw]
      exact ⟨by simp, by simp, by simp⟩

theorem Delivers.hubOk (h : HubOk env current hub) (hsnd : SenderOk hub snd)
    (hd : Delivers env blocking ok hub snd d hub') :
    HubOk env current hub' ∧ hub.Later hub' ∧ ∀ snd', d = .goes snd' → SenderOk hub' snd' := by
  unfold SenderOk at hsnd
  cases hd with
  | info hstage hinfo =>
    obtain ⟨hok, hlater, hid⟩ := streamInfo_ok h snd.record.item.stream ok
    rw [hinfo] at hok hlater hid
    refine ⟨hok, hlater, ?_⟩
    rintro _ ⟨⟩
    exact hid _ rfl
  | infoFails hstage hinfo =>
    grind [streamInfo_ok]
  | found hstage hroute =>
    refine ⟨h, .refl hub, ?_⟩
    rintro _ ⟨⟩
    rcases hstage with hstage | hstage
    all_goals
      rw [hstage] at hsnd
      exact ⟨hsnd, h.route _ _ hroute⟩
  | missing hstage =>
    rw [hstage] at hsnd
    refine ⟨h, .refl hub, ?_⟩
    rintro _ ⟨⟩
    exact hsnd
  | locks hstage =>
    rw [hstage] at hsnd
    refine ⟨⟨h.rows, h.cache, h.route, h.workers⟩, .of_workers (.refl _) rfl, ?_⟩
    rintro _ ⟨⟩
    exact hsnd
  | resolves hstage =>
    rw [hstage] at hsnd
    obtain ⟨hlater, hrows, -⟩ := ensureStream_spec env h.rows snd.record.item.stream
    refine ⟨ok_of_store h hlater hrows (fun _ _ => Or.inl) (fun _ _ h => h) rfl, .of_workers hlater rfl, ?_⟩
    rintro _ ⟨⟩
    exact hsnd.trans_le hlater.nextId
  | resolveFails =>
    exact ⟨⟨h.rows, h.cache, h.route, h.workers⟩, .of_workers (.refl _) rfl, by simp⟩
  | @spawns id row hstage =>
    rw [hstage] at hsnd
    obtain ⟨hok, hlater, hnew⟩ := ok_spawn h snd.record.item.stream row
    refine ⟨hok, hlater, ?_⟩
    rintro _ ⟨⟩
    exact ⟨hsnd, hnew⟩
  | closed | saturated => exact ⟨h, .refl hub, by simp⟩
  | retries hstage =>
    rw [hstage] at hsnd
    refine ⟨h, .refl hub, ?_⟩
    rintro _ ⟨⟩
    exact hsnd.1
  | @reserves id i w hstage hw =>
    rw [hstage] at hsnd
    have hok := h.workers w (mem_of_getElem? hw)
    have hreserved : WorkerOk env current hub.store { w with permits := w.permits + 1 } :=
      ⟨hok.queue, hok.buffer, hok.flush⟩
    obtain ⟨hhub, hlater⟩ := ok_setWorker h hw hreserved rfl
    refine ⟨hhub, hlater, ?_⟩
    rintro _ ⟨⟩
    exact ⟨hsnd.1, hlater.names _ _ hsnd.2⟩
  | @fills id i w hstage hw =>
    rw [hstage] at hsnd
    have hname : w.name = snd.record.item.stream := by
      simpa [nameOf, hw] using hsnd.2
    have hitem : ∀ x, Msg.doc ⟨snd.record, id⟩ = .doc x → ItemOk hub.store w.name x := by
      rintro _ ⟨⟩
      exact ⟨hname.symm, hsnd.1⟩
    obtain ⟨hhub, hlater⟩ := ok_push h hw _ hitem (w.permits - 1)
    exact ⟨hhub, hlater, by simp⟩

end Hub

/-! ## The whole -/

def Request.sender? (r : Request M) : Option (Sender M) :=
  r.work.bind fun work => work.sender.map Prod.fst

def Replay.sender? (r : Replay M) : Option (Sender M) :=
  match r.current with
  | some (.deliver snd) => some snd
  | _ => none

structure RowsInv (env : Env M) (current : Prop) (s : State M) : Prop where
  hub : HubOk env current s.hub
  requests : ∀ r ∈ s.requests, ∀ snd ∈ r.sender?, SenderOk s.hub snd
  replay : ∀ snd ∈ s.replay.sender?, SenderOk s.hub snd
  settled : ∀ e ∈ s.settled, Justified env current s.hub.store e.1 e.2

namespace RowsInv

variable {env : Env M} {current : Prop} {s s' : State M}

theorem move (h : RowsInv env current s) (hhub : HubOk env current s'.hub) (hlater : s.hub.Later s'.hub)
    (hrequests : ∀ r ∈ s'.requests, r ∈ s.requests ∨ ∀ snd ∈ r.sender?, SenderOk s'.hub snd)
    (hreplay : ∀ snd ∈ s'.replay.sender?, snd ∈ s.replay.sender? ∨ SenderOk s'.hub snd)
    (hsettled : ∀ e ∈ s'.settled, e ∈ s.settled ∨ Justified env current s'.hub.store e.1 e.2) :
    RowsInv env current s' where
  hub := hhub
  requests r hr snd hsnd := by
    rcases hrequests r hr with hr | hok
    · exact (h.requests r hr snd hsnd).mono hlater
    · exact hok snd hsnd
  replay snd hsnd := by
    rcases hreplay snd hsnd with hsnd | hok
    · exact (h.replay snd hsnd).mono hlater
    · exact hok
  settled e he := by
    rcases hsettled e he with he | hok
    · exact (h.settled e he).mono hlater.store
    · exact hok

theorem moveHub (h : RowsInv env current s) {hub : Hub M} (hhub : HubOk env current hub)
    (hlater : s.hub.Later hub) : RowsInv env current { s with hub } :=
  h.move hhub hlater (fun _ => Or.inl) (fun _ => Or.inl) fun _ => Or.inl

theorem setStore (h : RowsInv env current s) {store : Metastore M} (hlater : s.hub.store.Later store)
    (hrows : store.RowsOk) : RowsInv env current (s.setStore store) :=
  h.moveHub (Hub.ok_of_store h.hub hlater hrows (fun _ _ => Or.inl) (fun _ _ h => h) rfl)
    (.of_workers hlater rfl)

theorem issue (h : RowsInv env current s) (tombs : List Tombstone) :
    RowsInv env current (s.issue tombs) :=
  h.setStore (.of_noneRevived (fun _ _ h => h) rfl (Subset.refl _))
    (.of_noneRevived (fun _ _ h => h) rfl h.hub.rows)

variable {record : LogRecord} {fate : Fate M} {r : Request M} {d : Delivery M}

theorem confirm (h : RowsInv env current s) (hfate : fate.streamId? = none) :
    RowsInv env current (s.confirm [(record, fate)]) := by
  refine h.move h.hub (.refl _) (fun _ => Or.inl) (fun _ => Or.inl) fun e he => ?_
  rcases mem_append.mp he with he | he
  · exact .inl he
  · rw [mem_singleton.mp he]
    cases fate with
    | rejected | corrupt | undelivered => exact .inr trivial
    | published | unindexable | stale | deleted => cases hfate

theorem answer (h : RowsInv env current s) (answered : List Answer) :
    RowsInv env current { s with answered } :=
  h.move h.hub (.refl _) (fun _ => Or.inl) (fun _ => Or.inl) fun _ => Or.inl

theorem setRequest (h : RowsInv env current s) (j : ℕ) (hr : ∀ snd ∈ r.sender?, SenderOk s.hub snd) :
    RowsInv env current (s.setRequest j r) := by
  refine h.move h.hub (.refl _) (fun r' hr' => ?_) (fun _ => Or.inl) fun _ => Or.inl
  rcases mem_or_eq_of_mem_set hr' with hr' | rfl
  · exact .inl hr'
  · exact .inr hr

theorem setReplay (h : RowsInv env current s) {replay : Replay M}
    (hr : ∀ snd ∈ replay.sender?, SenderOk s.hub snd) : RowsInv env current (s.setReplay replay) :=
  h.move h.hub (.refl _) (fun _ => Or.inl) (fun snd hsnd => .inr (hr snd hsnd)) fun _ => Or.inl

theorem afterDelivery (h : RowsInv env current s) {j : ℕ} {work : Work M} {infoId : ℕ}
    (hd : ∀ snd, d = .goes snd → SenderOk s.hub snd) :
    RowsInv env current (s.afterDelivery j r work record infoId d) := by
  cases d with
  | goes snd =>
    refine h.setRequest j ?_
    rintro _ ⟨⟩
    exact hd snd rfl
  | sent => exact h.setRequest j (by simp [sender?])
  | saturated | closed | failed =>
    exact RowsInv.setRequest (h.confirm rfl) j (by simp [sender?])

theorem serves (h : RowsInv env current s) {j : ℕ} (hr : r ∈ s.requests)
    (hstep : Serves env s j r s') : RowsInv env current s' := by
  cases hstep with
  | plan => exact h.setRequest j (by simp [sender?])
  | issue hwork => exact (h.issue _).setRequest j (by simp [sender?, hwork])
  | route =>
    refine h.setRequest j ?_
    rintro _ ⟨⟩
    trivial
  | @deliver work snd infoId ok d hub hwork hsender hd =>
    have hsnd : SenderOk s.hub snd :=
      h.requests r hr snd (by simp [sender?, hwork, hsender])
    obtain ⟨hhub, hlater, hgoes⟩ := hd.hubOk h.hub hsnd
    exact (h.moveHub hhub hlater).afterDelivery hgoes
  | answer => exact (h.answer _).setRequest j (by simp [sender?])

theorem stop (h : RowsInv env current s) : RowsInv env current s.stop :=
  h.setReplay fun snd hsnd => h.replay snd hsnd

theorem replayDrops (h : RowsInv env current s) (hfate : fate.streamId? = none) :
    RowsInv env current (s.replayDrops record fate) :=
  (h.confirm hfate).setReplay (by simp [Replay.sender?])

theorem afterReplayDelivery (h : RowsInv env current s) (hd : ∀ snd, d = .goes snd → SenderOk s.hub snd) :
    RowsInv env current (s.afterReplayDelivery record d) := by
  cases d with
  | goes snd =>
    refine h.setReplay ?_
    rintro _ ⟨⟩
    exact hd snd rfl
  | sent => exact h.setReplay (by simp [Replay.sender?])
  | saturated | closed => exact h.replayDrops rfl
  | failed => exact h.stop

theorem replays (h : RowsInv env current s) {ok : Bool} (hstep : Replays env ok s s') :
    RowsInv env current s' := by
  cases hstep with
  | stops => exact h.stop
  | @yields r ahead =>
    refine h.setReplay fun snd hsnd => ?_
    grind [Replay.sender?]
  | issues hcurrent => exact (h.issue _).setReplay (by simp [Replay.sender?, hcurrent])
  | @tomb r =>
    obtain ⟨hhub, hlater, -⟩ := Hub.streamInfo_ok h.hub r.item.stream ok
    unfold replayTomb
    rcases hinfo : s.hub.streamInfo env r.item.stream ok with ⟨_ | id, hub⟩
    all_goals
      rw [hinfo] at hhub hlater
      have h' := h.moveHub hhub hlater
    · exact h'.stop
    · grind [setReplay, Replay.sender?]
  | upsert =>
    unfold replayUpsert
    split_ifs
    · exact (h.issue _).setReplay (by simp [Replay.sender?])
    · exact h.stop
  | check =>
    unfold replayCheck
    split_ifs
    · refine h.setReplay ?_
      rintro _ ⟨⟩
      trivial
    · exact h.replayDrops rfl
  | @deliver snd d hub hcurrent hd =>
    have hsnd : SenderOk s.hub snd := h.replay snd (by simp [Replay.sender?, hcurrent])
    obtain ⟨hhub, hlater, hgoes⟩ := hd.hubOk h.hub hsnd
    exact (h.moveHub hhub hlater).afterReplayDelivery hgoes

theorem update_none {α : Type} {f : String → Option α} {name name' : String} {b : Bool} {x : α}
    (h : (if b then Function.update f name none else f) name' = some x) : f name' = some x := by
  grind

theorem workerStep (h : RowsInv env current s) {i : ℕ} {w w' : Worker M} {eff : Effect M}
    {input : Input} (hcond : current → input = .lookup false → w.BindingCurrent s.hub.store)
    (hw : s.hub.workers[i]? = some w)
    (hstep : w.step env (s.hub.store.streams w.name) input = some (w', eff)) :
    RowsInv env current ({ s with hub := s.hub.setWorker i w' }.apply w.name w.target.id eff) := by
  have hok := Worker.step_rows hcond (h.hub.workers w (mem_of_getElem? hw)) hstep
  have hlater := s.hub.store.later_publish w.target.id eff.publish
  -- first the effect on what is shared, then the worker
  have heffect : HubOk env current { s.hub with
      cache := if eff.forget then Function.update s.hub.cache w.name none else s.hub.cache
      route := if eff.unpublish then Function.update s.hub.route w.name none else s.hub.route
      store := s.hub.store.publish w.target.id eff.publish } :=
    Hub.ok_of_store h.hub hlater (.of_noneRevived (fun _ _ h => h) rfl h.hub.rows)
      (fun _ _ hid => .inl (update_none hid)) (fun _ _ hi => update_none hi) rfl
  obtain ⟨hhub, hnames⟩ := Hub.ok_setWorker heffect hw hok.worker hok.name
  refine h.move ?_ ⟨?_, fun j name hj => ?_⟩ ?_ ?_ ?_
  · rw [apply_hub]
    exact hhub
  · rw [apply_hub]
    exact hlater
  · rw [apply_hub]
    exact hnames.names j name hj
  · rw [apply_requests]
    exact fun _ => Or.inl
  · rw [apply_replay]
    exact fun _ => Or.inl
  · intro e he
    rw [apply_settled] at he
    rw [apply_hub]
    rcases mem_append.mp he with he | he
    · exact .inl he
    · exact .inr ((hok.justified e he).mono hlater)

end RowsInv

/-- **The condition**: when a worker's lookup fails, the items of its batch that it would take for
stale are not items of the live row. -/
def FailedLookupCurrent (s : State M) : Action M → Prop
  | .worker i (.lookup false) => ∀ w ∈ s.hub.workers[i]?, w.BindingCurrent s.hub.store
  | _ => True

instance (s : State M) (a : Action M) : Decidable (FailedLookupCurrent s a) := by
  induction a using Action.casesOn with
  | worker _ b =>
    induction b using Input.casesOn with
    | lookup ok => induction ok using Bool.casesOn <;> dsimp only [FailedLookupCurrent] <;> infer_instance
    | _ => exact instDecidableTrue
  | _ => exact instDecidableTrue

theorem RowsInv.init (env : Env M) (current : Prop) : RowsInv env current (State.init : State M) where
  hub := ⟨by simp [RowsOk, Live, State.init], by simp [State.init],
    by simp [State.init], by simp [State.init]⟩
  requests r hr := by cases hr
  replay snd hsnd := by cases hsnd
  settled e he := by cases he

theorem RowsInv.step {s s' : State M} {a : Action M} (h : RowsInv env current s)
    (hcond : current → FailedLookupCurrent s a) (hstep : s.step env a = some s') :
    RowsInv env current s' := by
  cases a with
  | createStream name mapping =>
    simp only [State.step] at hstep
    split at hstep
    · cases hstep
    · cases hstep
      exact h.setStore (later_create ..) (rowsOk_create h.hub.rows _ _)
  | deleteStream name =>
    cases hstep
    have hnone := s.hub.store.noneRevived_delete name
    exact h.setStore (.of_noneRevived hnone rfl (Subset.refl _)) (.of_noneRevived hnone rfl h.hub.rows)
  | putMapping name mapping =>
    cases hstep
    have hnone := s.hub.store.noneRevived_putMapping name mapping
    exact h.setStore (.of_noneRevived hnone rfl (Subset.refl _)) (.of_noneRevived hnone rfl h.hub.rows)
  | expire name =>
    cases hstep
    refine h.moveHub (Hub.ok_of_store h.hub (.refl _) h.hub.rows (fun name' id hid => ?_)
      (fun _ _ h => h) rfl) (.of_workers (.refl _) rfl)
    grind
  | append plans =>
    obtain ⟨r, -, rfl⟩ := map_eq_some_iff.mp hstep
    refine h.move h.hub (.refl _) (fun r' hr' => ?_) (fun _ => Or.inl) fun _ => Or.inl
    grind [sender?]
  | appendFails routes =>
    obtain ⟨r, -, rfl⟩ := map_eq_some_iff.mp hstep
    exact h.move h.hub (.refl _) (fun _ => Or.inl) (fun _ => Or.inl) fun _ => Or.inl
  | request j ok =>
    obtain ⟨r, hr, hstep⟩ := bind_eq_some_iff.mp hstep
    exact h.serves (mem_of_getElem? hr) (State.serves_of_requestStep hstep)
  | replay ok => exact h.replays (State.replays_of_replayStep hstep).2
  | worker i input =>
    obtain ⟨w, hw, hstep⟩ := bind_eq_some_iff.mp hstep
    obtain ⟨⟨w', eff⟩, hworker, rfl⟩ := map_eq_some_iff.mp hstep
    refine h.workerStep (fun hcurrent hinput => ?_) hw hworker
    subst hinput
    exact hcond hcurrent w hw
  | flushStream i =>
    obtain ⟨w, hw, hstep⟩ := bind_eq_some_iff.mp hstep
    split_ifs at hstep
    cases hstep
    obtain ⟨hhub, hlater⟩ := Hub.ok_push h.hub hw .flush (by simp) w.permits
    exact h.moveHub hhub hlater
  | unlink g =>
    simp only [State.step] at hstep
    split_ifs at hstep
    cases hstep
    exact h.move h.hub (.refl _) (fun _ => Or.inl) (fun _ => Or.inl) fun _ => Or.inl
  | crash =>
    cases hstep
    refine ⟨⟨h.hub.rows, ?_, ?_, ?_⟩, ?_, ?_, ?_⟩ <;> simp [State.restart, Replay.sender?]

/-- Every item a flush has confirmed is published, or the row it was accepted against is retired, or
its document could not be indexed. -/
def DropsOnlyRetired (env : Env M) (s : State M) : Prop :=
  ∀ e ∈ s.settled, ∀ id ∈ e.2.streamId?, (∃ row, (row, e.1) ∈ s.hub.store.published) ∨
    s.hub.store.Retired e.1.item.stream id ∨
    ∃ mapping, e.2 = .unindexable id mapping ∧ env.indexable mapping e.1 = false

theorem RowsInv.dropsOnlyRetired {s : State M} (h : RowsInv env True s) : DropsOnlyRetired env s := by
  rintro ⟨r, fate⟩ he id hid
  have hjustified := h.settled _ he
  cases fate with
  | published => exact .inl hjustified
  | unindexable id' mapping =>
    cases hid
    exact .inr (.inr ⟨mapping, rfl, hjustified⟩)
  | stale =>
    cases hid
    exact .inr (.inl (hjustified trivial))
  | deleted =>
    cases hid
    exact .inr (.inl hjustified)
  | rejected | corrupt | undelivered => cases hid

/-- **A flush drops only items of retired rows** and documents that cannot be indexed, in every run in
which no lookup fails while the batch has an item of the live row and the worker is bound to another
one. -/
theorem drops_only_retired {env : Env M} {as : List (Action M)} {s : State M}
    (hrun : Runs.run (State.step env) State.init as = some s)
    (hcond : Runs.Along (State.step env) FailedLookupCurrent State.init as) : DropsOnlyRetired env s :=
  (Runs.run_invariant (State.step env) (fun _ _ _ hs hc hstep => hs.step (fun _ => hc) hstep)
    (RowsInv.init env True) hcond hrun).dropsOnlyRetired

/-! ## A stream re-created under a worker -/

/-- Document `a` is accepted against the first row of the stream and `b` against the second, by one
worker; the worker is about to look the stream up. -/
def recreated : List (Action Unit) :=
  [.createStream "s" (), appendDoc false "a"] ++ serve 0 9 ++
    [.deleteStream "s", .createStream "s" (), .expire "s", appendDoc false "b"] ++ serve 1 6 ++
    [.worker 0 .recv, .worker 0 .recv, .worker 0 .timeout]

def recreatedFound : List (Action Unit) :=
  recreated ++ [.worker 0 (.lookup true), .worker 0 .tick, .worker 0 (.build .failed),
    .worker 0 (.lookup false), .worker 0 .tick, .worker 0 (.build .ok), .worker 0 .tick]

theorem drops_only_retired_recreated :
    ∃ s, Runs.run (State.step plain) State.init recreatedFound = some s ∧ DropsOnlyRetired plain s ∧
      s.settled.map Prod.snd = [.stale 0, .published 1] := by
  obtain ⟨s, hrun, hend⟩ : ∃ s, Runs.run (State.step plain) State.init recreatedFound = some s ∧
      s.settled.map Prod.snd = [.stale 0, .published 1] := by
    decide +kernel
  exact ⟨s, hrun, drops_only_retired hrun (by decide +kernel), hend⟩

/-- **A confirmation is true.**  In every run, a record that is confirmed as published has been published,
and one that is confirmed as of a deleted stream was accepted against a row that is gone for good. -/
theorem confirmation_true {env : Env M} {as : List (Action M)} {s : State M}
    (hrun : Runs.run (State.step env) State.init as = some s) {r : LogRecord} {id : ℕ} :
    ((r, .published id) ∈ s.settled → ∃ row, (row, r) ∈ s.hub.store.published) ∧
      ((r, .deleted id) ∈ s.settled → s.hub.store.Retired r.item.stream id) := by
  have h : RowsInv env False s :=
    Runs.run_invariant_always _ (fun _ _ _ h hstep => h.step nofun hstep) (.init env False) hrun
  exact ⟨h.settled (r, .published id), h.settled (r, .deleted id)⟩

theorem confirmation_true_recreated :
    ∃ s r row, Runs.run (State.step plain) State.init recreatedFound = some s ∧
      (r, .published 1) ∈ s.settled ∧ (row, r) ∈ s.hub.store.published := by
  obtain ⟨s, hrun, r, hr⟩ : ∃ s, Runs.run (State.step plain) State.init recreatedFound = some s ∧
      ∃ r ∈ s.settled.map Prod.fst, (r, .published 1) ∈ s.settled := by
    decide +kernel
  obtain ⟨row, hrow⟩ := (confirmation_true hrun).1 hr.2
  exact ⟨s, r, row, hrun, hr.2, hrow⟩

/-- **A failed lookup drops an item of the live row.**  The worker is bound to the first row, so it
takes `b` for stale and confirms it; nothing is published and the second row is live. -/
theorem failed_lookup_drops_live :
    ¬ ∀ (as : List (Action Unit)) (s : State Unit),
      Runs.run (State.step plain) State.init as = some s → DropsOnlyRetired plain s := by
  intro hclaim
  obtain ⟨s, hrun, hpublished, ⟨record, fate⟩, he, hfate, hlive⟩ :
      ∃ s, Runs.run (State.step plain) State.init
        (recreated ++ [.worker 0 (.lookup false), .worker 0 .tick]) = some s ∧
        s.hub.store.published = [] ∧
        ∃ e ∈ s.settled, e.2 = .stale 1 ∧ s.hub.store.Live e.1.item.stream 1 := by
    decide +kernel
  obtain rfl : fate = .stale 1 := hfate
  obtain ⟨row, hrow⟩ | hretired | ⟨mapping, hmapping, -⟩ := hclaim _ s hrun _ he 1 rfl
  · rw [hpublished] at hrow
    cases hrow
  · exact hretired.not_live hlive
  · cases hmapping

end RSearch.Pipeline
