import RSearch.Wal.Segments

/-!
# A stream worker

One worker indexes the documents of one stream name.  It receives work items over a bounded channel
into a buffer, and **flushes** the buffer when it is full, when it is old enough, or when somebody
asks for it.  A flush takes the whole buffer, notes the positions of all of it, and then attempts
until it is done:

* it asks the metastore for the stream by name: the stream is there, perhaps re-created under a new
  row, or it is deleted, or the metastore cannot be asked and the worker keeps its binding;
* if the stream is deleted it confirms the positions it noted and gives up;
* it confirms and drops the items accepted against another row than the one it is bound to;
* it builds, uploads and publishes a split of the rest, and confirms that.  A failure sends the batch
  back into the next attempt, also if the publication has committed and only its answer was lost; a
  build task that is torn down sends back nothing.

A worker that has had nothing to do for long enough **retires**: it takes its sender out of the map,
closes its channel, drains what is in it, flushes that, and ends.

The worker is an automaton: `Worker.step` takes what the environment contributes (a message, a
timeout, the metastore's row, the outcome of the build) and gives the worker's next state with the
`Effect` of the step on the rest of the system.

A flush keeps beside the noted positions (`taken`) the items it has neither confirmed nor published
(`owned`); what the source calls `batch` is all of them, or nothing after a torn-down build.

## Main results

* `Worker.step_records`: what a step takes from the records a worker has, and where it goes.
-/

namespace RSearch.Pipeline

open List Wal

structure LogRecord where
  rid : ℕ
  item : WalItem
  pos : WalPos
deriving DecidableEq

/-- What a worker receives for one document: its record, and the stream row the write was accepted
against. -/
structure WorkItem where
  record : LogRecord
  streamId : ℕ
deriving DecidableEq

structure StreamRow (M : Type) where
  id : ℕ
  mapping : M
deriving DecidableEq

/-- What the pipeline is configured with, and what it calls.  `M` is the type of mappings. -/
structure Env (M : Type) where
  /-- Does the text parse as JSON? -/
  parses : String → Bool
  /-- Does the build take the document under the mapping? -/
  indexable : M → LogRecord → Bool
  /-- The mapping of a stream that a write creates. -/
  newMapping : M
  maxBatchDocs : ℕ
  queueCapacity : ℕ

/-- Why a record was confirmed.  The first four are a flush's, with the row the item was accepted
against; a document that could not be indexed comes with the mapping of the build. -/
inductive Fate (M : Type) where
  | published (streamId : ℕ)
  | unindexable (streamId : ℕ) (mapping : M)
  | stale (streamId : ℕ)
  | deleted (streamId : ℕ)
  /-- A request answers that the write was refused. -/
  | rejected
  /-- Replay finds a record that is not JSON. -/
  | corrupt
  /-- Replay finds the channel of the worker closed. -/
  | undelivered
deriving DecidableEq

inductive Msg where
  | doc (x : WorkItem)
  | flush
deriving DecidableEq

def Msg.record? : Msg → Option LogRecord
  | doc x => some x.record
  | flush => none

inductive FlushStage (M : Type) where
  /-- About to look the stream up. -/
  | lookup
  /-- The stream is deleted. -/
  | deleted
  /-- About to drop the items of other rows. -/
  | sift
  /-- About to build, upload and publish. -/
  | build
  /-- Published under `mapping`, about to confirm. -/
  | confirm (mapping : M)
deriving DecidableEq

structure Flush (M : Type) where
  taken : List WorkItem
  owned : List WorkItem
  aborted : Bool
  stage : FlushStage M
deriving DecidableEq

def Flush.batch {M : Type} (f : Flush M) : List WorkItem :=
  if f.aborted then [] else f.owned

theorem Flush.mem_owned {M : Type} {f : Flush M} {x : WorkItem} (h : x ∈ f.batch) : x ∈ f.owned := by
  unfold batch at h
  split_ifs at h
  · cases h
  · exact h

inductive Run (M : Type) where
  | receiving
  /-- Retiring, its sender out of the map. -/
  | unpublished
  /-- Retiring, its channel closed. -/
  | draining
  /-- In a flush; `last` if it is the one before the end. -/
  | flushing (f : Flush M) (last : Bool)
  | exited
deriving DecidableEq

structure Worker (M : Type) where
  name : String
  target : StreamRow M
  queue : List Msg := []
  /-- Slots of the channel that senders have reserved and not yet filled. -/
  permits : ℕ := 0
  buffer : List WorkItem := []
  run : Run M := .receiving
deriving DecidableEq

inductive BuildOutcome where
  | ok
  /-- The build, the upload, the staging or the publication failed; the batch comes back. -/
  | failed
  /-- The publication has committed, and its call reported an error; the batch comes back. -/
  | committed
  /-- The task was torn down, and the batch with it. -/
  | aborted
deriving DecidableEq

inductive Input where
  | recv
  | timeout
  | tick
  /-- The metastore answers, or cannot be asked. -/
  | lookup (answers : Bool)
  | build (outcome : BuildOutcome)
deriving DecidableEq

structure Effect (M : Type) where
  /-- The records of a call of `confirm`. -/
  confirm : Option (List (LogRecord × Fate M)) := none
  /-- The stream's cached row is forgotten. -/
  forget : Bool := false
  /-- The worker's sender is taken out of the map. -/
  unpublish : Bool := false
  /-- The split published. -/
  publish : List WorkItem := []
  /-- Records the worker no longer has and has not confirmed. -/
  lost : List LogRecord := []

def Effect.confirmed {M : Type} (eff : Effect M) : List LogRecord :=
  (eff.confirm.getD []).map Prod.fst

variable {M : Type}

namespace Run

def closed : Run M → Bool
  | receiving | unpublished | flushing _ false => false
  | draining | flushing _ true | exited => true

def drained : Run M → Bool
  | receiving | unpublished | draining | flushing _ false => false
  | flushing _ true | exited => true

def owned : Run M → List WorkItem
  | flushing f _ => f.owned
  | _ => []

end Run

namespace Worker

def startFlush (w : Worker M) (last : Bool) : Worker M :=
  { w with
    buffer := []
    run := .flushing { taken := w.buffer, owned := w.buffer, aborted := false, stage := .lookup } last }

def endFlush (w : Worker M) (last : Bool) : Worker M :=
  { w with run := if last then .exited else .receiving }

def lookup (w : Worker M) (f : Flush M) (last : Bool) (row : Option (StreamRow M)) :
    Bool → Worker M × Effect M
  | false => ({ w with run := .flushing { f with stage := .sift } last }, {})
  | true =>
    match row with
    | none => ({ w with run := .flushing { f with stage := .deleted } last }, {})
    | some row =>
      ({ w with target := row, run := .flushing { f with stage := .sift } last },
        { forget := row.id != w.target.id })

def stale (w : Worker M) (f : Flush M) : List WorkItem :=
  f.batch.filter fun x => x.streamId != w.target.id

def live (w : Worker M) (f : Flush M) : List WorkItem :=
  f.batch.filter fun x => x.streamId == w.target.id

def sift (w : Worker M) (f : Flush M) (last : Bool) : Worker M × Effect M :=
  if w.stale f = [] then
    ({ w with run := .flushing { f with stage := .build } last }, {})
  else
    let eff : Effect M := { confirm := some ((w.stale f).map fun x => (x.record, .stale x.streamId)) }
    if w.live f = [] then
      (w.endFlush last, eff)
    else
      ({ w with run := .flushing { f with owned := w.live f, stage := .build } last }, eff)

def docs (env : Env M) (mapping : M) (f : Flush M) : List WorkItem :=
  f.batch.filter fun x => env.indexable mapping x.record

/-- `flush` confirms its batch and returns.  The items a torn-down build took with it are lost. -/
def finish (w : Worker M) (f : Flush M) (last : Bool) (fate : WorkItem → Fate M) : Worker M × Effect M :=
  (w.endFlush last,
    { confirm := some (f.batch.map fun x => (x.record, fate x))
      lost := if f.aborted then f.owned.map (·.record) else [] })

/-- `flush_inner`, and what `flush` makes of its result.  A batch without an indexable document is
confirmed without a split. -/
def build (env : Env M) (w : Worker M) (f : Flush M) (last : Bool) :
    BuildOutcome → Worker M × Effect M
  | .ok =>
    if docs env w.target.mapping f = [] then
      w.finish f last fun x => .unindexable x.streamId w.target.mapping
    else
      ({ w with run := .flushing { f with stage := .confirm w.target.mapping } last },
        { publish := docs env w.target.mapping f })
  | .failed => ({ w with run := .flushing { f with stage := .lookup } last }, {})
  | .committed =>
    ({ w with run := .flushing { f with stage := .lookup } last },
      { publish := docs env w.target.mapping f })
  | .aborted => ({ w with run := .flushing { f with aborted := true, stage := .lookup } last }, {})

def giveUp (w : Worker M) (f : Flush M) (last : Bool) : Worker M × Effect M :=
  (w.endFlush last,
    { confirm := some (f.taken.map fun x => (x.record, .deleted x.streamId)), forget := true })

/-- The split is published: `flush` confirms the batch, the skipped documents included. -/
def confirmBatch (env : Env M) (w : Worker M) (f : Flush M) (last : Bool) (mapping : M) :
    Worker M × Effect M :=
  w.finish f last fun x =>
    if env.indexable mapping x.record then .published x.streamId
    else .unindexable x.streamId mapping

def flushStep (env : Env M) (row : Option (StreamRow M)) (w : Worker M) (f : Flush M) (last : Bool)
    (input : Input) : Option (Worker M × Effect M) :=
  match f.stage, input with
  | .lookup, .lookup answers => some (w.lookup f last row answers)
  | .deleted, .tick => some (w.giveUp f last)
  | .sift, .tick => some (w.sift f last)
  | .build, .build outcome => some (w.build env f last outcome)
  | .confirm mapping, .tick => some (w.confirmBatch env f last mapping)
  | _, _ => none

def receive (env : Env M) (w : Worker M) : Msg → Worker M
  | .doc x =>
    if max env.maxBatchDocs 1 ≤ w.buffer.length + 1 then
      { w with buffer := w.buffer ++ [x] }.startFlush false
    else
      { w with buffer := w.buffer ++ [x] }
  | .flush => if w.buffer = [] then w else w.startFlush false

def drain (w : Worker M) : Msg → Worker M
  | .doc x => { w with buffer := w.buffer ++ [x] }
  | .flush => w

def step (env : Env M) (row : Option (StreamRow M)) (w : Worker M) (input : Input) :
    Option (Worker M × Effect M) :=
  match w.run, input with
  | .receiving, .recv =>
    match w.queue with
    | msg :: queue => some ({ w with queue }.receive env msg, {})
    | [] => none
  | .receiving, .timeout =>
    if w.buffer = [] then some ({ w with run := .unpublished }, { unpublish := true })
    else some (w.startFlush false, {})
  | .unpublished, .tick => some ({ w with run := .draining }, {})
  | .draining, .tick =>
    match w.queue with
    | msg :: queue => some ({ w with queue }.drain msg, {})
    | [] =>
      if w.buffer = [] then some ({ w with run := .exited }, {})
      else some (w.startFlush true, {})
  | .flushing f last, input => w.flushStep env row f last input
  | _, _ => none

/-! ## The records a worker has -/

def records (w : Worker M) : List LogRecord :=
  w.queue.filterMap Msg.record? ++ (w.buffer.map (·.record) ++ w.run.owned.map (·.record))

def Untouched (w : Worker M) : Prop :=
  ∀ f last, w.run = .flushing f last → f.stage = .deleted → f.owned = f.taken

end Worker

/-- Where the records go that a worker has before a step: it keeps some, it loses some, and the
others are gone.  If the worker is `Untouched` these are the ones it confirms. -/
def Settles (w w' : Worker M) (eff : Effect M) : Prop :=
  ∃ gone, w.records.Perm (w'.records ++ (eff.lost ++ gone)) ∧
    (w.Untouched → gone.Perm eff.confirmed)

namespace Worker

variable {env : Env M} {row : Option (StreamRow M)} {w w' : Worker M} {eff : Effect M} {f : Flush M}
  {last : Bool} {input : Input}

theorem settles_of_perm (h : w.records.Perm w'.records) (hconfirm : eff.confirm = none)
    (hlost : eff.lost = []) : Settles w w' eff := by
  refine ⟨[], ?_, fun _ => ?_⟩
  · simpa [hlost] using h
  · simp [Effect.confirmed, hconfirm]

theorem records_flushing (hrun : w.run = .flushing f last) :
    w.records = w.queue.filterMap Msg.record? ++ (w.buffer.map (·.record) ++ f.owned.map (·.record)) := by
  rw [records, hrun, Run.owned]

theorem records_endFlush (w : Worker M) (last : Bool) :
    (w.endFlush last).records = w.queue.filterMap Msg.record? ++ w.buffer.map (·.record) := by
  cases last <;> simp [records, endFlush, Run.owned]

theorem records_startFlush (hrun : w.run.owned = []) (last : Bool) :
    (w.startFlush last).records = w.records := by
  rw [records, records, hrun]
  simp [startFlush, Run.owned]

theorem perm_endFlush (hrun : w.run = .flushing f last) :
    w.records.Perm ((w.endFlush last).records ++ f.owned.map (·.record)) := by
  rw [records_flushing hrun, records_endFlush, append_assoc]

theorem settles_of_owned (hrun : w.run = .flushing f last) {f' : Flush M} {target : StreamRow M}
    (howned : f'.owned = f.owned) (hconfirm : eff.confirm = none) (hlost : eff.lost = []) :
    Settles w { w with target, run := .flushing f' last } eff := by
  refine settles_of_perm ?_ hconfirm hlost
  rw [records_flushing hrun, records_flushing rfl, howned]

theorem settles_finish (hrun : w.run = .flushing f last) (fate : WorkItem → Fate M) :
    Settles w (w.finish f last fate).1 (w.finish f last fate).2 := by
  have hconfirmed : (w.finish f last fate).2.confirmed = f.batch.map (·.record) := by
    simp [finish, Effect.confirmed, Function.comp_def]
  refine ⟨f.batch.map (·.record), ?_, fun _ => by rw [hconfirmed]⟩
  have hsplit : f.owned.map (·.record)
      = (w.finish f last fate).2.lost ++ f.batch.map (·.record) := by
    cases haborted : f.aborted <;> simp [finish, Flush.batch, haborted]
  rw [← hsplit]
  exact perm_endFlush hrun

theorem settles_giveUp (hrun : w.run = .flushing f last) (hstage : f.stage = .deleted) :
    Settles w (w.giveUp f last).1 (w.giveUp f last).2 := by
  refine ⟨f.owned.map (·.record), ?_, fun huntouched => ?_⟩
  · exact perm_endFlush hrun
  rw [huntouched f last hrun hstage]
  simp [giveUp, Effect.confirmed, Function.comp_def]

theorem settles_sift (hrun : w.run = .flushing f last) :
    Settles w (w.sift f last).1 (w.sift f last).2 := by
  unfold sift
  split_ifs with hstale hlive
  · exact settles_of_owned hrun rfl rfl rfl
  all_goals
    -- something is stale, so the batch was handed back and is all the flush owns
    have hbatch : f.batch = f.owned := by
      cases haborted : f.aborted with
      | true => simp [stale, Flush.batch, haborted] at hstale
      | false => simp [Flush.batch, haborted]
    have hsplit : (f.owned.map (·.record)).Perm
        ((w.live f).map (·.record) ++ (w.stale f).map (·.record)) := by
      have hpart := filter_append_perm (fun x : WorkItem => x.streamId == w.target.id) f.batch
      rw [← hbatch, ← map_append]
      exact (hpart.symm).map _
    refine ⟨(w.stale f).map (·.record), ?_, fun _ => by simp [Effect.confirmed, Function.comp_def]⟩
  · rw [hlive] at hsplit
    exact (perm_endFlush hrun).trans (hsplit.append_left _)
  · rw [records_flushing hrun, records_flushing rfl, append_assoc, append_assoc]
    exact (hsplit.append_left _).append_left _

theorem settles_of_eq {r : Worker M × Effect M} (heq : r = (w', eff)) (h : Settles w r.1 r.2) :
    Settles w w' eff := by
  rw [heq] at h
  exact h

theorem settles_lookup (hrun : w.run = .flushing f last) (answers : Bool) :
    Settles w (w.lookup f last row answers).1 (w.lookup f last row answers).2 := by
  cases answers with
  | false => exact settles_of_owned hrun rfl rfl rfl
  | true =>
    cases row with
    | none | some row => exact settles_of_owned hrun rfl rfl rfl

theorem settles_build (hrun : w.run = .flushing f last) (outcome : BuildOutcome) :
    Settles w (w.build env f last outcome).1 (w.build env f last outcome).2 := by
  cases outcome with
  | ok =>
    unfold build
    split_ifs
    · exact settles_finish hrun _
    · exact settles_of_owned hrun rfl rfl rfl
  | failed | committed | aborted => exact settles_of_owned hrun rfl rfl rfl

theorem flushStep_cases (h : w.flushStep env row f last input = some (w', eff)) :
    (f.stage = .lookup ∧ ∃ answers, input = .lookup answers ∧ w.lookup f last row answers = (w', eff)) ∨
    (f.stage = .deleted ∧ w.giveUp f last = (w', eff)) ∨
    (f.stage = .sift ∧ w.sift f last = (w', eff)) ∨
    (f.stage = .build ∧ ∃ outcome, input = .build outcome ∧ w.build env f last outcome = (w', eff)) ∨
    ∃ mapping, f.stage = .confirm mapping ∧ w.confirmBatch env f last mapping = (w', eff) := by
  unfold flushStep at h
  split at h
  · next answers hstage => exact .inl ⟨hstage, answers, rfl, Option.some.inj h⟩
  · next hstage => exact .inr (.inl ⟨hstage, Option.some.inj h⟩)
  · next hstage => exact .inr (.inr (.inl ⟨hstage, Option.some.inj h⟩))
  · next outcome hstage =>
      exact .inr (.inr (.inr (.inl ⟨hstage, outcome, rfl, Option.some.inj h⟩)))
  · next mapping hstage =>
      exact .inr (.inr (.inr (.inr ⟨mapping, hstage, Option.some.inj h⟩)))
  · cases h

theorem settles_flushStep (hrun : w.run = .flushing f last)
    (h : w.flushStep env row f last input = some (w', eff)) : Settles w w' eff := by
  obtain ⟨-, answers, -, heq⟩ | ⟨hstage, heq⟩ | ⟨-, heq⟩ | ⟨-, outcome, -, heq⟩ | ⟨mapping, -, heq⟩ :=
    flushStep_cases h
  · exact settles_of_eq heq (settles_lookup hrun answers)
  · exact settles_of_eq heq (settles_giveUp hrun hstage)
  · exact settles_of_eq heq (settles_sift hrun)
  · exact settles_of_eq heq (settles_build hrun outcome)
  · exact settles_of_eq heq (settles_finish hrun _)

theorem perm_drain {queue : List Msg} {msg : Msg} (hqueue : w.queue = msg :: queue)
    (hrun : w.run.owned = []) : w.records.Perm ({ w with queue }.drain msg).records := by
  rw [records, hqueue]
  cases msg with
  | flush => exact Perm.refl _
  | doc x =>
    simp only [records, drain, hrun, map_append, map_cons, map_nil, append_nil]
    rw [← append_assoc]
    exact (perm_append_singleton ..).symm

theorem receive_eq (env : Env M) (w : Worker M) (msg : Msg) :
    w.receive env msg = w.drain msg ∨ w.receive env msg = (w.drain msg).startFlush false := by
  cases msg with
  | doc x =>
    simp only [receive, drain]
    split_ifs
    · exact .inr rfl
    · exact .inl rfl
  | flush =>
    simp only [receive, drain]
    split_ifs
    · exact .inl rfl
    · exact .inr rfl

theorem run_drain (w : Worker M) (msg : Msg) : (w.drain msg).run = w.run := by
  cases msg <;> rfl

theorem step_cases (h : w.step env row input = some (w', eff)) :
    (∃ msg queue, w.queue = msg :: queue ∧ eff = {} ∧
      ((w.run = .receiving ∧ w' = { w with queue }.receive env msg) ∨
        (w.run = .draining ∧ w' = { w with queue }.drain msg))) ∨
    (w.run = .receiving ∧ w.buffer = [] ∧ w' = { w with run := .unpublished } ∧ eff = { unpublish := true }) ∨
    (w.run = .unpublished ∧ w' = { w with run := .draining } ∧ eff = {}) ∨
    (w.run = .draining ∧ w.queue = [] ∧ w.buffer = [] ∧ w' = { w with run := .exited } ∧ eff = {}) ∨
    (((w.run = .receiving ∧ w' = w.startFlush false) ∨
      (w.run = .draining ∧ w.queue = [] ∧ w' = w.startFlush true)) ∧ eff = {}) ∨
    ∃ f last, w.run = .flushing f last ∧ w.flushStep env row f last input = some (w', eff) := by
  unfold step at h
  split at h
  · next hrun =>
      split at h
      · next msg queue hqueue =>
          cases h
          exact .inl ⟨msg, queue, hqueue, rfl, .inl ⟨hrun, rfl⟩⟩
      · cases h
  · next hrun =>
      split_ifs at h with hbuffer <;> cases h
      · exact .inr (.inl ⟨hrun, hbuffer, rfl, rfl⟩)
      · exact .inr (.inr (.inr (.inr (.inl ⟨.inl ⟨hrun, rfl⟩, rfl⟩))))
  · next hrun =>
      cases h
      exact .inr (.inr (.inl ⟨hrun, rfl, rfl⟩))
  · next hrun =>
      split at h
      · next msg queue hqueue =>
          cases h
          exact .inl ⟨msg, queue, hqueue, rfl, .inr ⟨hrun, rfl⟩⟩
      · next hqueue =>
          split_ifs at h with hbuffer <;> cases h
          · exact .inr (.inr (.inr (.inl ⟨hrun, hqueue, hbuffer, rfl, rfl⟩)))
          · exact .inr (.inr (.inr (.inr (.inl ⟨.inr ⟨hrun, hqueue, rfl⟩, rfl⟩))))
  · next f last hrun => exact .inr (.inr (.inr (.inr (.inr ⟨f, last, hrun, h⟩))))
  · cases h

theorem step_records (h : w.step env row input = some (w', eff)) : Settles w w' eff := by
  obtain ⟨msg, queue, hqueue, rfl, hmove⟩ | ⟨hrun, -, rfl, rfl⟩ | ⟨hrun, rfl, rfl⟩ |
    ⟨hrun, -, -, rfl, rfl⟩ | ⟨hstart, rfl⟩ | ⟨f, last, hrun, hflush⟩ := step_cases h
  · rcases hmove with ⟨hrun, rfl⟩ | ⟨hrun, rfl⟩
    all_goals
      have howned : w.run.owned = [] := by rw [hrun]; rfl
      have hdrain := perm_drain hqueue howned
    · refine settles_of_perm (hdrain.trans ?_) rfl rfl
      rcases receive_eq env { w with queue } msg with heq | heq
      · rw [heq]
      · rw [heq, records_startFlush (by rw [run_drain]; exact howned)]
    · exact settles_of_perm hdrain rfl rfl
  · exact settles_of_perm (by simp [records, hrun, Run.owned]) rfl rfl
  · exact settles_of_perm (by simp [records, hrun, Run.owned]) rfl rfl
  · exact settles_of_perm (by simp [records, hrun, Run.owned]) rfl rfl
  · rcases hstart with ⟨hrun, rfl⟩ | ⟨hrun, -, rfl⟩
    all_goals
      have howned : w.run.owned = [] := by rw [hrun]; rfl
      exact settles_of_perm (by rw [records_startFlush howned]) rfl rfl
  · exact settles_flushStep hrun hflush

/-! ## A flush that finds its stream deleted -/

/-- If the metastore has no row for the stream, the flush has dropped nothing so far. -/
def NothingDropped (row : Option (StreamRow M)) (w : Worker M) : Prop :=
  match w.run with
  | .flushing f _ => row.isNone = true → f.owned = f.taken
  | _ => True

@[reducible] def decideFlushing (P : Flush M → Prop) [DecidablePred P] : (run : Run M) →
    Decidable (match run with | .flushing f _ => P f | _ => True)
  | .flushing f _ => inferInstanceAs (Decidable (P f))
  | .receiving | .unpublished | .draining | .exited => instDecidableTrue

instance (row : Option (StreamRow M)) (w : Worker M) : Decidable (w.NothingDropped row) :=
  decideFlushing (fun f => row.isNone = true → f.owned = f.taken) w.run

theorem untouched_of_stage (hrun : w.run = .flushing f last) (hstage : f.stage ≠ .deleted) :
    w.Untouched := by
  intro f' last' hrun' hdeleted
  rw [hrun] at hrun'
  cases hrun'
  exact absurd hdeleted hstage

theorem untouched_of_run (hrun : ∀ f last, w.run ≠ .flushing f last) : w.Untouched :=
  fun f last hflushing => absurd hflushing (hrun f last)

theorem untouched_startFlush (w : Worker M) (last : Bool) : (w.startFlush last).Untouched :=
  untouched_of_stage rfl (by simp)

theorem untouched_endFlush (w : Worker M) (last : Bool) : (w.endFlush last).Untouched := by
  refine untouched_of_run fun f last' => ?_
  cases last <;> simp [endFlush]

theorem untouched_flushStep (hcond : input = .lookup true → w.NothingDropped row)
    (hrun : w.run = .flushing f last) (h : w.flushStep env row f last input = some (w', eff)) :
    w'.Untouched := by
  obtain ⟨-, answers, rfl, heq⟩ | ⟨-, heq⟩ | ⟨-, heq⟩ | ⟨-, outcome, -, heq⟩ | ⟨mapping, -, heq⟩ :=
    flushStep_cases h
  · cases answers with
    | false =>
      cases heq
      exact untouched_of_stage rfl (by simp)
    | true =>
      cases row with
      | none =>
        cases heq
        have hkeeps := hcond rfl
        rw [NothingDropped, hrun] at hkeeps
        rintro f' last' ⟨⟩ -
        exact hkeeps rfl
      | some row =>
        cases heq
        exact untouched_of_stage rfl (by simp)
  · cases heq
    exact untouched_endFlush w last
  · unfold sift at heq
    split_ifs at heq <;> cases heq
    · exact untouched_of_stage rfl (by simp)
    · exact untouched_endFlush w last
    · exact untouched_of_stage rfl (by simp)
  · cases outcome with
    | ok =>
      unfold build at heq
      split_ifs at heq <;> cases heq
      · exact untouched_endFlush w last
      · exact untouched_of_stage rfl (by simp)
    | failed | committed | aborted =>
      cases heq
      exact untouched_of_stage rfl (by simp)
  · cases heq
    exact untouched_endFlush w last

theorem untouched_step (hcond : input = .lookup true → w.NothingDropped row)
    (h : w.step env row input = some (w', eff)) : w'.Untouched := by
  obtain ⟨msg, queue, -, -, hmove⟩ | ⟨-, -, rfl, -⟩ | ⟨-, rfl, -⟩ | ⟨-, -, -, rfl, -⟩ |
    ⟨hstart, -⟩ | ⟨f, last, hrun, hflush⟩ := step_cases h
  · rcases hmove with ⟨hrun, rfl⟩ | ⟨hrun, rfl⟩
    · rcases receive_eq env { w with queue } msg with heq | heq
      · rw [heq]
        exact untouched_of_run fun f last => by rw [run_drain]; simp [hrun]
      · rw [heq]
        exact untouched_startFlush _ _
    · exact untouched_of_run fun f last => by rw [run_drain]; simp [hrun]
  · exact untouched_of_run fun f last => by simp
  · exact untouched_of_run fun f last => by simp
  · exact untouched_of_run fun f last => by simp
  · rcases hstart with ⟨-, rfl⟩ | ⟨-, -, rfl⟩ <;> exact untouched_startFlush _ _
  · exact untouched_flushStep hcond hrun hflush

end Worker

end RSearch.Pipeline
