import RSearch.Lib.Runs
import RSearch.Lib.Slots
import RSearch.Pipeline.Worker

/-!
# The ingest pipeline

The parts that hand documents to the stream workers, and what they share.
-/

namespace RSearch.Pipeline

open Option Wal

variable {M : Type}

/-! ## The metastore -/

/-- Older versions of `docId` than `beforeSeq` are hidden.  `cause` is the number of the record the
tombstone was issued for. -/
structure Tombstone where
  streamId : ℕ
  docId : String
  beforeSeq : Int64
  cause : ℕ
deriving DecidableEq

structure Metastore (M : Type) where
  streams : String → Option (StreamRow M) := fun _ => none
  nextId : ℕ := 0
  tombstones : List Tombstone := []
  published : List (ℕ × LogRecord) := []

namespace Metastore

def create (store : Metastore M) (name : String) (mapping : M) : Metastore M :=
  { store with
    streams := Function.update store.streams name (some ⟨store.nextId, mapping⟩)
    nextId := store.nextId + 1 }

def ensureStream (env : Env M) (store : Metastore M) (name : String) : StreamRow M × Metastore M :=
  match store.streams name with
  | some row => (row, store)
  | none => (⟨store.nextId, env.newMapping⟩, store.create name env.newMapping)

def delete (store : Metastore M) (name : String) : Metastore M :=
  { store with streams := Function.update store.streams name none }

def putMapping (store : Metastore M) (name : String) (mapping : M) : Metastore M :=
  { store with
    streams := Function.update store.streams name
      ((store.streams name).map fun row => { row with mapping }) }

end Metastore

/-! ## The log -/

structure Book where
  segments : Segments
  current : ℕ
  /-- The segment files that exist. -/
  files : List ℕ
  /-- Those among them that were collected and wait to be unlinked. -/
  pending : List ℕ
  /-- The records stored in the files, in order; those of unlinked files are kept for history. -/
  stored : List LogRecord
  nextRid : ℕ

namespace Book

def empty : Book where
  segments := (∅ : Segments).track 0
  current := 0
  files := [0]
  pending := []
  stored := []
  nextRid := 0

def rotate (b : Book) : Book :=
  let r := ((b.segments.sealSegment b.current).track (b.current + 1)).collectConfirmed
  { b with
    segments := r.2
    current := b.current + 1
    files := b.files ++ [b.current + 1]
    pending := b.pending ++ r.1 }

def append (b : Book) (full : Bool) (item : WalItem) : Option (LogRecord × Book) :=
  let b := if full then b.rotate else b
  match b.segments.bump b.current with
  | none => none
  | some segments =>
    let record : LogRecord := ⟨b.nextRid, item, ⟨b.current⟩⟩
    some (record, { b with segments, stored := b.stored ++ [record], nextRid := b.nextRid + 1 })

def confirm (b : Book) (positions : List WalPos) : Book :=
  { b with
    segments := (b.segments.confirm positions).2
    pending := b.pending ++ (b.segments.confirm positions).1 }

def unlink (b : Book) (g : ℕ) : Book :=
  { b with files := b.files.erase g, pending := b.pending.erase g }

def surviving (b : Book) : List LogRecord :=
  b.stored.filter fun r => r.pos.segment ∈ b.files

def countIn (records : List LogRecord) (g : ℕ) : ℕ :=
  records.countP fun r => r.pos.segment == g

def countFiles (records : List LogRecord) (files : List ℕ) : Segments :=
  files.foldl (fun (segs : Segments) g => segs.insert g ⟨countIn records g, true⟩) ∅

def nextSegment (files : List ℕ) : ℕ :=
  match files.max? with
  | some g => g + 1
  | none => 0

/-- The log after a restart: every file is a sealed segment with as many records as it holds. -/
def restart (b : Book) : Book where
  segments := (countFiles b.surviving b.files).track (nextSegment b.files)
  current := nextSegment b.files
  files := b.files ++ [nextSegment b.files]
  pending := []
  stored := b.surviving
  nextRid := b.nextRid

end Book

/-! ## Senders -/

/-- Where a sender stands with its record.  `streamId` is the row it has been accepted against. -/
inductive SendStage (M : Type) where
  /-- About to ask for the stream's row. -/
  | info
  /-- About to look for the worker in the map. -/
  | workerFor (streamId : ℕ)
  /-- Waiting for the lock under which workers are created. -/
  | waitCreate (streamId : ℕ)
  /-- Holding the lock, about to ask for the row. -/
  | resolve (streamId : ℕ)
  /-- Holding the lock, about to start a worker for `row`. -/
  | spawn (streamId : ℕ) (row : StreamRow M)
  /-- Holding a sender of worker `w`. -/
  | send (streamId w : ℕ)
  /-- Holding a slot in the channel of worker `w`. -/
  | permit (streamId w : ℕ)

structure Sender (M : Type) where
  record : LogRecord
  retried : Bool := false
  stage : SendStage M := .info

inductive Delivery (M : Type) where
  | goes (snd : Sender M)
  | sent
  | saturated
  | closed
  | failed

structure Hub (M : Type) where
  store : Metastore M
  cache : String → Option ℕ := fun _ => none
  /-- The map from stream names to the senders of their workers. -/
  route : String → Option ℕ := fun _ => none
  /-- Is a worker being created? -/
  creating : Bool := false
  workers : List (Worker M) := []

namespace Hub

def streamInfo (env : Env M) (hub : Hub M) (name : String) (ok : Bool) : Option ℕ × Hub M :=
  match hub.cache name with
  | some id => (some id, hub)
  | none =>
    if ok then
      let r := hub.store.ensureStream env name
      (some r.1.id,
        { hub with store := r.2, cache := Function.update hub.cache name (some r.1.id) })
    else (none, hub)

def setWorker (hub : Hub M) (i : ℕ) (w : Worker M) : Hub M :=
  { hub with workers := hub.workers.set i w }

theorem streamInfo_workers (env : Env M) (hub : Hub M) (name : String) (ok : Bool) :
    (hub.streamInfo env name ok).2.workers = hub.workers := by
  grind [streamInfo]

def spawn (hub : Hub M) (name : String) (row : StreamRow M) : Hub M :=
  { hub with
    workers := hub.workers ++ [{ name, target := row }]
    route := Function.update hub.route name (some hub.workers.length)
    creating := false }

/-- One step of a sender.  A `blocking` sender waits for room in a channel and takes a closed one for
final; the other gives up on a full channel and looks once more for the worker of a closed one. -/
def deliver (env : Env M) (blocking ok : Bool) (hub : Hub M) (snd : Sender M) :
    Option (Delivery M × Hub M) :=
  let name := snd.record.item.stream
  match snd.stage with
  | .info =>
    match hub.streamInfo env name ok with
    | (some id, hub) => some (.goes { snd with stage := .workerFor id }, hub)
    | (none, hub) => some (.failed, hub)
  | .workerFor id =>
    match hub.route name with
    | some w => some (.goes { snd with stage := .send id w }, hub)
    | none => some (.goes { snd with stage := .waitCreate id }, hub)
  | .waitCreate id =>
    if hub.creating then none
    else
      match hub.route name with
      | some w => some (.goes { snd with stage := .send id w }, hub)
      | none => some (.goes { snd with stage := .resolve id }, { hub with creating := true })
  | .resolve id =>
    if ok then
      let r := hub.store.ensureStream env name
      some (.goes { snd with stage := .spawn id r.1 }, { hub with store := r.2 })
    else some (.failed, { hub with creating := false })
  | .spawn id row =>
    some (.goes { snd with stage := .send id hub.workers.length }, hub.spawn name row)
  | .send id i =>
    match hub.workers[i]? with
    | none => none
    | some w =>
      if w.run.closed then
        if blocking then some (.closed, hub)
        else if snd.retried then some (.saturated, hub)
        else some (.goes { snd with retried := true, stage := .workerFor id }, hub)
      else if w.queue.length + w.permits < env.queueCapacity then
        some (.goes { snd with stage := .permit id i },
          hub.setWorker i { w with permits := w.permits + 1 })
      else if blocking then none
      else some (.saturated, hub)
  | .permit id i =>
    match hub.workers[i]? with
    | none => none
    | some w =>
      some (.sent, hub.setWorker i
        { w with queue := w.queue ++ [.doc ⟨snd.record, id⟩], permits := w.permits - 1 })

end Hub

/-! ## Requests -/

/-- A routed copy of an item: its record, and the row its stream had when the request looked. -/
structure Route where
  record : LogRecord
  infoId : ℕ

structure Work (M : Type) where
  routes : List Route
  sender : Option (Sender M × ℕ) := none
  /-- The copies handled so far. -/
  tried : List LogRecord := []
  accepted : Bool := false
  saturated : Bool := false

structure Answer where
  records : List LogRecord
  status : ℕ

def Work.answer (work : Work M) : Answer where
  records := work.tried
  status := if work.accepted then 200 else if work.saturated then 429 else 500

structure Request (M : Type) where
  plans : List (List Route)
  work : Option (Work M) := none
  /-- The tombstones of the accepted copies, not yet issued. -/
  tombs : List Tombstone := []

def replacement (record : LogRecord) (streamId : ℕ) : List Tombstone :=
  if record.item.tombstone then
    [⟨streamId, record.item.id, record.item.seq, record.rid⟩]
  else []

/-! ## Replay -/

inductive ReplayStage (M : Type) where
  /-- The record carries the flag: about to ask for its stream's row. -/
  | tomb (r : LogRecord)
  /-- A thousand tombstones have come together, and are to be issued first. -/
  | upsert (r : LogRecord)
  /-- About to see whether the record is JSON. -/
  | check (r : LogRecord)
  | deliver (snd : Sender M)

def ReplayStage.record : ReplayStage M → LogRecord
  | tomb r | upsert r | check r => r
  | deliver snd => snd.record

structure Replay (M : Type) where
  ahead : List LogRecord
  current : Option (ReplayStage M) := none
  tombs : List Tombstone := []
  /-- The records the iterator has yielded. -/
  yielded : List LogRecord := []
  /-- Replay has returned an error. -/
  stopped : Bool := false

/-! ## The whole -/

structure State (M : Type) where
  hub : Hub M
  book : Book
  requests : List (Request M) := []
  replay : Replay M
  lost : List LogRecord := []
  settled : List (LogRecord × Fate M) := []
  answered : List Answer := []

/-- A routed copy that a request asks to append: whether the log rotates before it, the item, and
the row of its stream. -/
structure NewRoute where
  full : Bool
  item : WalItem
  infoId : ℕ
deriving DecidableEq

inductive Action (M : Type) where
  | createStream (name : String) (mapping : M)
  | deleteStream (name : String)
  | putMapping (name : String) (mapping : M)
  /-- A cached row gets too old. -/
  | expire (name : String)
  /-- A request's batch is appended. -/
  | append (plans : List (List NewRoute))
  /-- An append fails after it has stored some records. -/
  | appendFails (routes : List NewRoute)
  | request (j : ℕ) (ok : Bool)
  | replay (ok : Bool)
  | worker (i : ℕ) (input : Input)
  /-- Somebody asks worker `i` to flush. -/
  | flushStream (i : ℕ)
  | unlink (g : ℕ)
  | crash

def Book.appendRoutes (b : Book) : List NewRoute → Option (List Route × Book)
  | [] => some ([], b)
  | new :: news =>
    (b.append new.full new.item).bind fun r =>
      (appendRoutes r.2 news).map fun rest => (⟨r.1, new.infoId⟩ :: rest.1, rest.2)

def Book.appendPlans (b : Book) : List (List NewRoute) → Option (List (List Route) × Book)
  | [] => some ([], b)
  | plan :: plans =>
    (b.appendRoutes plan).bind fun r =>
      (appendPlans r.2 plans).map fun rest => (r.1 :: rest.1, rest.2)

namespace State

def setRequest (s : State M) (j : ℕ) (r : Request M) : State M :=
  { s with requests := s.requests.set j r }

def confirm (s : State M) (entries : List (LogRecord × Fate M)) : State M :=
  { s with
    book := s.book.confirm (entries.map (·.1.pos))
    settled := s.settled ++ entries }

def issue (s : State M) (tombs : List Tombstone) : State M :=
  { s with hub := { s.hub with store := { s.hub.store with
      tombstones := s.hub.store.tombstones ++ tombs } } }

def apply (s : State M) (name : String) (id : ℕ) (eff : Effect M) : State M :=
  let s := match eff.confirm with
    | some entries => s.confirm entries
    | none => s
  { s with
    lost := s.lost ++ eff.lost
    hub := { s.hub with
      cache := if eff.forget then Function.update s.hub.cache name none else s.hub.cache
      route := if eff.unpublish then Function.update s.hub.route name none else s.hub.route
      store := { s.hub.store with
        published := s.hub.store.published ++ eff.publish.map fun x => (id, x.record) } } }

def accept (s : State M) (j : ℕ) (r : Request M) (work : Work M) (record : LogRecord)
    (infoId : ℕ) : State M :=
  s.setRequest j { r with
    work := some { work with sender := none, tried := work.tried ++ [record], accepted := true }
    tombs := r.tombs ++ replacement record infoId }

def refuse (s : State M) (j : ℕ) (r : Request M) (work : Work M) (record : LogRecord)
    (saturated : Bool) : State M :=
  (s.confirm [(record, .rejected)]).setRequest j { r with
    work := some { work with
      sender := none, tried := work.tried ++ [record], saturated := work.saturated || saturated } }

def afterDelivery (s : State M) (j : ℕ) (r : Request M) (work : Work M) (record : LogRecord)
    (infoId : ℕ) : Delivery M → State M
  | .goes snd => s.setRequest j { r with work := some { work with sender := some (snd, infoId) } }
  | .sent => s.accept j r work record infoId
  | .saturated | .closed => s.refuse j r work record true
  | .failed => s.refuse j r work record false

def requestStep (env : Env M) (s : State M) (j : ℕ) (r : Request M) (ok : Bool) :
    Option (State M) :=
  match r.work with
  | none =>
    match r.plans with
    | plan :: plans => some (s.setRequest j { r with plans, work := some { routes := plan } })
    | [] =>
      if r.tombs = [] ∨ ok = false then none
      else some ((s.issue r.tombs).setRequest j { r with tombs := [] })
  | some work =>
    match work.sender with
    | some (snd, infoId) =>
      (s.hub.deliver env false ok snd).map fun d =>
        { s with hub := d.2 }.afterDelivery j r work snd.record infoId d.1
    | none =>
      match work.routes with
      | route :: routes =>
        some (s.setRequest j { r with work := some { work with
          routes, sender := some ({ record := route.record }, route.infoId) } })
      | [] =>
        some ({ s with answered := s.answered ++ [work.answer] }.setRequest j
          { r with work := none })

def setReplay (s : State M) (replay : Replay M) : State M :=
  { s with replay }

def stop (s : State M) : State M :=
  s.setReplay { s.replay with stopped := true }

def replayDrops (s : State M) (record : LogRecord) (fate : Fate M) : State M :=
  (s.confirm [(record, fate)]).setReplay { s.replay with current := none }

def afterReplayDelivery (s : State M) (record : LogRecord) : Delivery M → State M
  | .goes snd => s.setReplay { s.replay with current := some (.deliver snd) }
  | .sent => s.setReplay { s.replay with current := none }
  | .saturated | .closed => s.replayDrops record .undelivered
  | .failed => s.stop

/-- Replay has nothing in hand: the iterator yields a record or an error, or at its end the tombstones
that are left are issued. -/
def replayNext (s : State M) (ok : Bool) : Option (State M) :=
  match s.replay.ahead, ok with
  | _ :: _, false => some s.stop
  | r :: ahead, true =>
    some (s.setReplay { s.replay with
      ahead, yielded := s.replay.yielded ++ [r]
      current := some (if r.item.tombstone then .tomb r else .check r) })
  | [], ok =>
    if s.replay.tombs = [] then none
    else if ok then
      some ((s.issue s.replay.tombs).setReplay { s.replay with tombs := [] })
    else some s.stop

def replayTomb (env : Env M) (s : State M) (r : LogRecord) (ok : Bool) : State M :=
  match s.hub.streamInfo env r.item.stream ok with
  | (none, hub) => { s with hub }.stop
  | (some id, hub) =>
    let tombs := s.replay.tombs ++ [⟨id, r.item.id, r.item.seq, r.rid⟩]
    { s with hub }.setReplay { s.replay with
      tombs, current := some (if 1000 ≤ tombs.length then .upsert r else .check r) }

def replayUpsert (s : State M) (r : LogRecord) (ok : Bool) : State M :=
  if ok then
    (s.issue s.replay.tombs).setReplay { s.replay with tombs := [], current := some (.check r) }
  else s.stop

def replayCheck (env : Env M) (s : State M) (r : LogRecord) : State M :=
  if env.parses r.item.doc then
    s.setReplay { s.replay with current := some (.deliver { record := r }) }
  else s.replayDrops r .corrupt

def replayStep (env : Env M) (s : State M) (ok : Bool) : Option (State M) :=
  if s.replay.stopped then none
  else
    match s.replay.current with
    | none => s.replayNext ok
    | some (.tomb r) => some (s.replayTomb env r ok)
    | some (.upsert r) => some (s.replayUpsert r ok)
    | some (.check r) => some (s.replayCheck env r)
    | some (.deliver snd) =>
      (s.hub.deliver env true ok snd).map fun d =>
        { s with hub := d.2 }.afterReplayDelivery snd.record d.1

def restart (s : State M) : State M where
  hub := { store := s.hub.store }
  book := s.book.restart
  replay := { ahead := s.book.surviving }
  answered := s.answered

def init : State M where
  hub := { store := {} }
  book := .empty
  replay := { ahead := [] }

def setStore (s : State M) (store : Metastore M) : State M :=
  { s with hub := { s.hub with store } }

def step (env : Env M) (s : State M) : Action M → Option (State M)
  | .createStream name mapping =>
    match s.hub.store.streams name with
    | some _ => none
    | none => some (s.setStore (s.hub.store.create name mapping))
  | .deleteStream name => some (s.setStore (s.hub.store.delete name))
  | .putMapping name mapping => some (s.setStore (s.hub.store.putMapping name mapping))
  | .expire name =>
    some { s with hub := { s.hub with cache := Function.update s.hub.cache name none } }
  | .append plans =>
    (s.book.appendPlans plans).map fun r =>
      { s with book := r.2, requests := s.requests ++ [{ plans := r.1 }] }
  | .appendFails routes =>
    (s.book.appendRoutes routes).map fun r =>
      { s with book := r.2, lost := s.lost ++ r.1.map (·.record) }
  | .request j ok => (s.requests[j]?).bind fun r => s.requestStep env j r ok
  | .replay ok => s.replayStep env ok
  | .worker i input =>
    (s.hub.workers[i]?).bind fun w =>
      (w.step env (s.hub.store.streams w.name) input).map fun r =>
        { s with hub := s.hub.setWorker i r.1 }.apply w.name w.target.id r.2
  | .flushStream i =>
    (s.hub.workers[i]?).bind fun w =>
      if w.run.closed = false ∧ w.queue.length + w.permits < env.queueCapacity then
        some { s with hub := s.hub.setWorker i { w with queue := w.queue ++ [.flush] } }
      else none
  | .unlink g => if g ∈ s.book.pending then some { s with book := s.book.unlink g } else none
  | .crash => some s.restart

/-! ### What a worker's effect leaves alone -/

section Apply

variable (s : State M) (name : String) (id : ℕ) (eff : Effect M)

@[simp] theorem apply_requests : (s.apply name id eff).requests = s.requests := by
  unfold apply
  cases eff.confirm <;> rfl

@[simp] theorem apply_replay : (s.apply name id eff).replay = s.replay := by
  unfold apply
  cases eff.confirm <;> rfl

@[simp] theorem apply_answered : (s.apply name id eff).answered = s.answered := by
  unfold apply
  cases eff.confirm <;> rfl

@[simp] theorem apply_lost : (s.apply name id eff).lost = s.lost ++ eff.lost := by
  unfold apply
  cases eff.confirm <;> rfl

@[simp] theorem apply_settled : (s.apply name id eff).settled = s.settled ++ eff.confirm.getD [] := by
  unfold apply
  cases eff.confirm with
  | none => exact (List.append_nil _).symm
  | some entries => rfl

@[simp] theorem apply_hub : (s.apply name id eff).hub = { s.hub with
      cache := if eff.forget then Function.update s.hub.cache name none else s.hub.cache
      route := if eff.unpublish then Function.update s.hub.route name none else s.hub.route
      store := { s.hub.store with
        published := s.hub.store.published ++ eff.publish.map fun x => (id, x.record) } } := by
  unfold apply
  cases eff.confirm <;> rfl

theorem apply_book : (eff.confirm.getD [] = [] ∧ (s.apply name id eff).book = s.book) ∨
    (s.apply name id eff).book = s.book.confirm ((eff.confirm.getD []).map (·.1.pos)) := by
  unfold apply
  cases eff.confirm with
  | none => exact .inl ⟨rfl, rfl⟩
  | some entries => exact .inr rfl

@[simp] theorem apply_stored : (s.apply name id eff).book.stored = s.book.stored := by
  unfold apply
  cases eff.confirm <;> rfl

@[simp] theorem apply_nextRid : (s.apply name id eff).book.nextRid = s.book.nextRid := by
  unfold apply
  cases eff.confirm <;> rfl

end Apply

end State

/-! ## What the parties can do

The steps of a sender, of a request and of replay as relations, one rule for each way the step can
go. -/

inductive Hub.Delivers (env : Env M) (blocking ok : Bool) (hub : Hub M) (snd : Sender M) :
    Delivery M → Hub M → Prop
  | info {id : ℕ} {hub' : Hub M} (hstage : snd.stage = .info)
      (hinfo : hub.streamInfo env snd.record.item.stream ok = (some id, hub')) :
      Delivers env blocking ok hub snd (.goes { snd with stage := .workerFor id }) hub'
  | infoFails {hub' : Hub M} (hstage : snd.stage = .info)
      (hinfo : hub.streamInfo env snd.record.item.stream ok = (none, hub')) :
      Delivers env blocking ok hub snd .failed hub'
  | found {id i : ℕ} (hstage : snd.stage = .workerFor id ∨ snd.stage = .waitCreate id)
      (hroute : hub.route snd.record.item.stream = some i) :
      Delivers env blocking ok hub snd (.goes { snd with stage := .send id i }) hub
  | missing {id : ℕ} (hstage : snd.stage = .workerFor id) :
      Delivers env blocking ok hub snd (.goes { snd with stage := .waitCreate id }) hub
  | locks {id : ℕ} (hstage : snd.stage = .waitCreate id) (hfree : hub.creating = false)
      (hroute : hub.route snd.record.item.stream = none) :
      Delivers env blocking ok hub snd (.goes { snd with stage := .resolve id })
        { hub with creating := true }
  | resolves {id : ℕ} (hstage : snd.stage = .resolve id) :
      Delivers env blocking ok hub snd
        (.goes { snd with stage := .spawn id (hub.store.ensureStream env snd.record.item.stream).1 })
        { hub with store := (hub.store.ensureStream env snd.record.item.stream).2 }
  | resolveFails {id : ℕ} (hstage : snd.stage = .resolve id) (hok : ok = false) :
      Delivers env blocking ok hub snd .failed { hub with creating := false }
  | spawns {id : ℕ} {row : StreamRow M} (hstage : snd.stage = .spawn id row) :
      Delivers env blocking ok hub snd (.goes { snd with stage := .send id hub.workers.length })
        (hub.spawn snd.record.item.stream row)
  | closed {id i : ℕ} {w : Worker M} (hstage : snd.stage = .send id i)
      (hw : hub.workers[i]? = some w) (hclosed : w.run.closed = true) (hblocking : blocking = true) :
      Delivers env blocking ok hub snd .closed hub
  | retries {id i : ℕ} (hstage : snd.stage = .send id i) (hblocking : blocking = false) :
      Delivers env blocking ok hub snd (.goes { snd with retried := true, stage := .workerFor id }) hub
  | saturated {id i : ℕ} (hstage : snd.stage = .send id i) (hblocking : blocking = false) :
      Delivers env blocking ok hub snd .saturated hub
  | reserves {id i : ℕ} {w : Worker M} (hstage : snd.stage = .send id i)
      (hw : hub.workers[i]? = some w) (hopen : w.run.closed = false) :
      Delivers env blocking ok hub snd (.goes { snd with stage := .permit id i })
        (hub.setWorker i { w with permits := w.permits + 1 })
  | fills {id i : ℕ} {w : Worker M} (hstage : snd.stage = .permit id i)
      (hw : hub.workers[i]? = some w) :
      Delivers env blocking ok hub snd .sent (hub.setWorker i
        { w with queue := w.queue ++ [.doc ⟨snd.record, id⟩], permits := w.permits - 1 })

variable {env : Env M} {blocking ok : Bool} {hub hub' : Hub M} {snd : Sender M} {d : Delivery M}
  {s s' : State M}

theorem Hub.delivers_of_deliver (h : hub.deliver env blocking ok snd = some (d, hub')) :
    Delivers env blocking ok hub snd d hub' := by
  unfold Hub.deliver at h
  simp only at h
  split at h
  · next hstage =>
      split at h
      · next hinfo =>
          cases h
          exact .info hstage hinfo
      · next hinfo =>
          cases h
          exact .infoFails hstage hinfo
  · next id hstage =>
      split at h
      · next hroute =>
          cases h
          exact .found (.inl hstage) hroute
      · cases h
        exact .missing hstage
  · next id hstage =>
      split_ifs at h with hcreating
      split at h
      · next hroute =>
          cases h
          exact .found (.inr hstage) hroute
      · next hroute =>
          cases h
          exact .locks hstage (Bool.eq_false_iff.mpr hcreating) hroute
  · next id hstage =>
      split_ifs at h with hok <;> cases h
      · exact .resolves hstage
      · exact .resolveFails hstage (Bool.eq_false_iff.mpr hok)
  · next id row hstage =>
      cases h
      exact .spawns hstage
  · next id i hstage =>
      split at h
      · cases h
      · next w hw =>
          split_ifs at h with hclosed hblocking hretried hroom hblocking <;> cases h
          · exact .closed hstage hw hclosed hblocking
          · exact .saturated hstage (Bool.eq_false_iff.mpr hblocking)
          · exact .retries hstage (Bool.eq_false_iff.mpr hblocking)
          · exact .reserves hstage hw (Bool.eq_false_iff.mpr hclosed)
          · exact .saturated hstage (Bool.eq_false_iff.mpr hblocking)
  · next id i hstage =>
      split at h
      · cases h
      · next w hw =>
          cases h
          exact .fills hstage hw

inductive State.Serves (env : Env M) (s : State M) (j : ℕ) (r : Request M) : State M → Prop
  | plan {plan : List Route} {plans : List (List Route)} (hwork : r.work = none)
      (hplans : r.plans = plan :: plans) :
      Serves env s j r (s.setRequest j { r with plans, work := some { routes := plan } })
  | issue (hwork : r.work = none) (hplans : r.plans = []) :
      Serves env s j r ((s.issue r.tombs).setRequest j { r with tombs := [] })
  | route {work : Work M} {route : Route} {routes : List Route} (hwork : r.work = some work)
      (hsender : work.sender = none) (hroutes : work.routes = route :: routes) :
      Serves env s j r (s.setRequest j { r with work := some { work with
        routes, sender := some ({ record := route.record }, route.infoId) } })
  | deliver {work : Work M} {snd : Sender M} {infoId : ℕ} {ok : Bool} {d : Delivery M} {hub : Hub M}
      (hwork : r.work = some work) (hsender : work.sender = some (snd, infoId))
      (hd : Hub.Delivers env false ok s.hub snd d hub) :
      Serves env s j r ({ s with hub }.afterDelivery j r work snd.record infoId d)
  | answer {work : Work M} (hwork : r.work = some work) (hsender : work.sender = none)
      (hroutes : work.routes = []) :
      Serves env s j r ({ s with answered := s.answered ++ [work.answer] }.setRequest j
        { r with work := none })

theorem State.serves_of_requestStep {j : ℕ} {r : Request M} (h : s.requestStep env j r ok = some s') :
    Serves env s j r s' := by
  unfold requestStep at h
  split at h
  · next hwork =>
      split at h
      · next plan plans hplans =>
          cases h
          exact .plan hwork hplans
      · next hplans =>
          split_ifs at h
          cases h
          exact .issue hwork hplans
  · next work hwork =>
      split at h
      · next snd infoId hsender =>
          obtain ⟨⟨d, hub⟩, hd, rfl⟩ := map_eq_some_iff.mp h
          exact .deliver hwork hsender (Hub.delivers_of_deliver hd)
      · next hsender =>
          split at h
          · next route routes hroutes =>
              cases h
              exact .route hwork hsender hroutes
          · next hroutes =>
              cases h
              exact .answer hwork hsender hroutes

inductive State.Replays (env : Env M) (ok : Bool) (s : State M) : State M → Prop
  | stops (hcurrent : s.replay.current = none) : Replays env ok s s.stop
  | yields {r : LogRecord} {ahead : List LogRecord} (hcurrent : s.replay.current = none)
      (hahead : s.replay.ahead = r :: ahead) :
      Replays env ok s (s.setReplay { s.replay with
        ahead, yielded := s.replay.yielded ++ [r]
        current := some (if r.item.tombstone then .tomb r else .check r) })
  | issues (hcurrent : s.replay.current = none) (hahead : s.replay.ahead = []) :
      Replays env ok s ((s.issue s.replay.tombs).setReplay { s.replay with tombs := [] })
  | tomb {r : LogRecord} (hcurrent : s.replay.current = some (.tomb r)) :
      Replays env ok s (s.replayTomb env r ok)
  | upsert {r : LogRecord} (hcurrent : s.replay.current = some (.upsert r)) :
      Replays env ok s (s.replayUpsert r ok)
  | check {r : LogRecord} (hcurrent : s.replay.current = some (.check r)) :
      Replays env ok s (s.replayCheck env r)
  | deliver {snd : Sender M} {d : Delivery M} {hub : Hub M}
      (hcurrent : s.replay.current = some (.deliver snd))
      (hd : Hub.Delivers env true ok s.hub snd d hub) :
      Replays env ok s ({ s with hub }.afterReplayDelivery snd.record d)

theorem State.replays_of_replayStep (h : s.replayStep env ok = some s') :
    s.replay.stopped = false ∧ Replays env ok s s' := by
  unfold replayStep at h
  split_ifs at h with hstopped
  refine ⟨Bool.eq_false_iff.mpr hstopped, ?_⟩
  split at h
  · next hcurrent =>
      unfold replayNext at h
      split at h
      · cases h
        exact .stops hcurrent
      · next r ahead hahead =>
          cases h
          exact .yields hcurrent hahead
      · next hahead =>
          split_ifs at h <;> cases h
          · exact .issues hcurrent hahead
          · exact .stops hcurrent
  · next r hcurrent =>
      cases h
      exact .tomb hcurrent
  · next r hcurrent =>
      cases h
      exact .upsert hcurrent
  · next r hcurrent =>
      cases h
      exact .check hcurrent
  · next snd hcurrent =>
      obtain ⟨⟨d, hub⟩, hd, rfl⟩ := map_eq_some_iff.mp h
      exact .deliver hcurrent (Hub.delivers_of_deliver hd)

inductive State.Moves (env : Env M) (s : State M) : Action M → State M → Prop
  /-- The metastore's rows change, or a cached row is forgotten. -/
  | outside {a : Action M} {store : Metastore M} {cache : String → Option ℕ}
      (hcache : ∀ name id, cache name = some id → s.hub.cache name = some id)
      (hpublished : store.published = s.hub.store.published)
      (htombstones : store.tombstones = s.hub.store.tombstones) (hcrash : a ≠ .crash) :
      Moves env s a { s with hub := { s.hub with store, cache } }
  | append {plans : List (List NewRoute)} {new : List (List Route)} {b : Book}
      (hb : s.book.appendPlans plans = some (new, b)) :
      Moves env s (.append plans)
        { s with book := b, requests := s.requests ++ [{ plans := new }] }
  | appendFails {routes : List NewRoute} {new : List Route} {b : Book}
      (hb : s.book.appendRoutes routes = some (new, b)) :
      Moves env s (.appendFails routes)
        { s with book := b, lost := s.lost ++ new.map (·.record) }
  | request {j : ℕ} {ok : Bool} {r : Request M} {s' : State M} (hj : s.requests[j]? = some r)
      (h : Serves env s j r s') : Moves env s (.request j ok) s'
  | replay {ok : Bool} {s' : State M} (hstopped : s.replay.stopped = false)
      (h : Replays env ok s s') : Moves env s (.replay ok) s'
  | worker {i : ℕ} {input : Input} {w w' : Worker M} {eff : Effect M}
      (hi : s.hub.workers[i]? = some w)
      (h : w.step env (s.hub.store.streams w.name) input = some (w', eff)) :
      Moves env s (.worker i input)
        ({ s with hub := s.hub.setWorker i w' }.apply w.name w.target.id eff)
  | flushStream {i : ℕ} {w : Worker M} (hi : s.hub.workers[i]? = some w) :
      Moves env s (.flushStream i)
        { s with hub := s.hub.setWorker i { w with queue := w.queue ++ [.flush] } }
  | unlink {g : ℕ} (hg : g ∈ s.book.pending) : Moves env s (.unlink g) { s with book := s.book.unlink g }
  | crash : Moves env s .crash s.restart

theorem State.moves_of_step {a : Action M} (h : s.step env a = some s') : Moves env s a s' := by
  cases a with
  | createStream name mapping =>
    simp only [step] at h
    split at h <;> cases h
    exact .outside (fun _ _ h => h) rfl rfl (by simp)
  | deleteStream name | putMapping name mapping =>
    cases h
    exact .outside (fun _ _ h => h) rfl rfl (by simp)
  | expire name =>
    cases h
    refine .outside (fun name' id hid => ?_) rfl rfl (by simp)
    grind
  | append plans =>
    obtain ⟨⟨new, b⟩, hb, rfl⟩ := map_eq_some_iff.mp h
    exact .append hb
  | appendFails routes =>
    obtain ⟨⟨new, b⟩, hb, rfl⟩ := map_eq_some_iff.mp h
    exact .appendFails hb
  | request j ok =>
    obtain ⟨r, hj, hstep⟩ := bind_eq_some_iff.mp h
    exact .request hj (serves_of_requestStep hstep)
  | replay ok =>
    obtain ⟨hstopped, hreplay⟩ := replays_of_replayStep h
    exact .replay hstopped hreplay
  | worker i input =>
    obtain ⟨w, hi, hstep⟩ := bind_eq_some_iff.mp h
    obtain ⟨⟨w', eff⟩, hworker, rfl⟩ := map_eq_some_iff.mp hstep
    exact .worker hi hworker
  | flushStream i =>
    obtain ⟨w, hi, hstep⟩ := bind_eq_some_iff.mp h
    split_ifs at hstep
    cases hstep
    exact .flushStream hi
  | unlink g =>
    simp only [step] at h
    split_ifs at h with hg
    cases h
    exact .unlink hg
  | crash =>
    cases h
    exact .crash

/-! ## What holds of every worker -/

theorem Hub.Delivers.workers {p : Worker M → Prop} (hnew : ∀ name row, p { name, target := row })
    (hchannel : ∀ w queue permits, p w → p { w with queue, permits }) (hall : ∀ w ∈ hub.workers, p w)
    (h : Delivers env blocking ok hub snd d hub') : ∀ w ∈ hub'.workers, p w := by
  have hset {i : ℕ} {w : Worker M} (hw : hub.workers[i]? = some w) (queue : List Msg) (permits : ℕ) :
      ∀ v ∈ (hub.setWorker i { w with queue, permits }).workers, p v := by
    intro v hv
    rcases List.mem_or_eq_of_mem_set hv with hv | rfl
    · exact hall v hv
    · grind
  have hworkers := hub.streamInfo_workers env snd.record.item.stream ok
  cases h with
  | info _ hinfo | infoFails _ hinfo =>
    rw [hinfo] at hworkers
    rwa [hworkers]
  | spawns =>
    intro w hw
    rcases List.mem_append.mp hw with hw | hw
    · exact hall w hw
    · grind
  | reserves _ hw | fills _ hw => exact hset hw _ _
  | found | missing | locks | resolves | resolveFails | closed | retries | saturated => exact hall

namespace State

variable {env : Env M} {s s' : State M}

@[simp] theorem afterDelivery_hub (s : State M) (j : ℕ) (r : Request M) (work : Work M)
    (record : LogRecord) (infoId : ℕ) (d : Delivery M) :
    (s.afterDelivery j r work record infoId d).hub = s.hub := by
  cases d <;> rfl

@[simp] theorem afterReplayDelivery_hub (s : State M) (record : LogRecord) (d : Delivery M) :
    (s.afterReplayDelivery record d).hub = s.hub := by
  cases d <;> rfl

theorem replayTomb_workers (env : Env M) (s : State M) (r : LogRecord) (ok : Bool) :
    (s.replayTomb env r ok).hub.workers = s.hub.workers := by
  have hworkers := s.hub.streamInfo_workers env r.item.stream ok
  unfold replayTomb
  rcases hinfo : s.hub.streamInfo env r.item.stream ok with ⟨_ | id, hub⟩
  all_goals
    rw [hinfo] at hworkers
    exact hworkers

@[simp] theorem replayUpsert_workers (s : State M) (r : LogRecord) (ok : Bool) :
    (s.replayUpsert r ok).hub.workers = s.hub.workers := by
  unfold replayUpsert
  split_ifs <;> rfl

@[simp] theorem replayCheck_hub (env : Env M) (s : State M) (r : LogRecord) :
    (s.replayCheck env r).hub = s.hub := by
  unfold replayCheck
  split_ifs <;> rfl

variable {p : Worker M → Prop}

theorem Serves.workers {j : ℕ} {r : Request M} (hnew : ∀ name row, p { name, target := row })
    (hchannel : ∀ w queue permits, p w → p { w with queue, permits }) (hall : ∀ w ∈ s.hub.workers, p w)
    (h : Serves env s j r s') : ∀ w ∈ s'.hub.workers, p w := by
  cases h with
  | deliver _ _ hd =>
    rw [afterDelivery_hub]
    exact hd.workers hnew hchannel hall
  | plan | issue | route | answer => exact hall

theorem Replays.workers {ok : Bool} (hnew : ∀ name row, p { name, target := row })
    (hchannel : ∀ w queue permits, p w → p { w with queue, permits }) (hall : ∀ w ∈ s.hub.workers, p w)
    (h : Replays env ok s s') : ∀ w ∈ s'.hub.workers, p w := by
  cases h with
  | tomb => rwa [replayTomb_workers]
  | upsert => rwa [replayUpsert_workers]
  | check => rwa [replayCheck_hub]
  | deliver _ hd =>
    rw [afterReplayDelivery_hub]
    exact hd.workers hnew hchannel hall
  | stops | yields | issues => exact hall

theorem step_workers {a : Action M} (hnew : ∀ name row, p { name, target := row })
    (hchannel : ∀ w queue permits, p w → p { w with queue, permits }) (hall : ∀ w ∈ s.hub.workers, p w)
    (hmoves : ∀ i input w w' eff, a = .worker i input → s.hub.workers[i]? = some w →
      w.step env (s.hub.store.streams w.name) input = some (w', eff) → p w')
    (h : s.step env a = some s') : ∀ w ∈ s'.hub.workers, p w := by
  have hset {i : ℕ} {w' : Worker M} (hw' : p w') : ∀ v ∈ s.hub.workers.set i w', p v := by
    grind
  cases moves_of_step h with
  | outside | append | appendFails | unlink => exact hall
  | request _ hserves => exact hserves.workers hnew hchannel hall
  | replay _ hreplays => exact hreplays.workers hnew hchannel hall
  | @worker i input w w' eff hi hworker =>
    rw [apply_hub]
    exact hset (hmoves i input w w' eff rfl hi hworker)
  | @flushStream i w hi => exact hset (hchannel w _ w.permits (hall w (List.mem_of_getElem? hi)))
  | crash => exact fun w hw => absurd hw List.not_mem_nil

end State

/-! ## A node to run -/

def plain : Env Unit where
  parses _ := true
  indexable _ _ := true
  newMapping := ()
  maxBatchDocs := 3
  queueCapacity := 4

/-- A request for one document of stream `s`, after a rotation if the segment is full. -/
def appendDoc (full : Bool) (id : String) : Action Unit :=
  .append [[⟨full, ⟨"s", id, 1, false, "x"⟩, 0⟩]]

def serve (j n : ℕ) : List (Action Unit) :=
  List.replicate n (.request j true)

def replays (n : ℕ) : List (Action Unit) :=
  List.replicate n (.replay true)

def publishes (i : ℕ) : List (Action Unit) :=
  [.worker i .timeout, .worker i (.lookup true), .worker i .tick, .worker i (.build .ok)]

end RSearch.Pipeline
