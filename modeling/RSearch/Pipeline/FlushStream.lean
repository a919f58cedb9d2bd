import RSearch.Pipeline.Handoff

/-!
# What a caller of `flush_stream` may rely on

`flush_stream` takes the worker's sender from the map, sends it a message with a way to answer, and
waits.  The worker answers at once if its buffer is empty, and after the flush otherwise.  A channel is
a queue, so whatever was sent before is then out of its hands.
-/

namespace RSearch.Pipeline

open List Option Wal Worker Run State

variable {M : Type}

/-! ## Calls -/

inductive Wait where
  /-- The caller has a sender of the worker, and with `slot` a slot of its channel. -/
  | holding (slot : Bool)
  /-- In the channel, behind `ahead` other messages. -/
  | queued (ahead : ℕ)
  /-- Among the worker's waiters. -/
  | accepted
  | answered
deriving DecidableEq

inductive CallStage where
  | worker (i : ℕ) (wait : Wait)
  | returned
deriving DecidableEq

/-- A call of `flush_stream`.  `owed` is history: what was sent to the stream's workers before. -/
structure FlushCall where
  owed : List LogRecord
  stage : CallStage
deriving DecidableEq

open FlushCall

def Run.answers : Run M → Wait
  | .receiving | .exited => .answered
  | .unpublished | .draining | .flushing _ _ => .accepted

theorem Run.owned_of_answers {run : Run M} (h : run.answers = .answered) : run.owned = [] := by
  cases run with
  | receiving | exited => rfl
  | unpublished | draining | flushing => cases h

def Wait.after (w w' : Worker M) : Wait → Wait
  | .holding slot => .holding slot
  | .queued ahead =>
    if w.queue.length ≤ w'.queue.length then .queued ahead
    else
      match ahead with
      | n + 1 => .queued n
      | 0 => w'.run.answers
  | .accepted => w'.run.answers
  | .answered => .answered

def FlushCall.after (hub hub' : Hub M) (c : FlushCall) : FlushCall :=
  match c.stage with
  | .returned => c
  | .worker i wait =>
    match hub.workers[i]?, hub'.workers[i]? with
    | some w, some w' => { c with stage := .worker i (wait.after w w') }
    | _, _ => c

structure Callers (M : Type) where
  node : State M
  /-- The records that some worker has had. -/
  sent : List LogRecord := []
  calls : List FlushCall := []

open Callers

inductive CallAction (M : Type) where
  /-- The node moves. -/
  | node (a : Action M)
  /-- Somebody calls `flush_stream`, which looks for the worker in the map. -/
  | call (name : String)
  /-- Call `k` reserves a slot of the channel or finds it closed, or fills the slot it has. -/
  | send (k : ℕ)
  /-- Call `k` is answered, or its message was dropped with the channel. -/
  | wake (k : ℕ)

namespace Callers

def init : Callers M where
  node := .init

def setCall (s : Callers M) (k : ℕ) (c : FlushCall) (stage : CallStage) : Callers M :=
  { s with calls := s.calls.set k { c with stage } }

def setWorker (s : Callers M) (i : ℕ) (w : Worker M) : Callers M :=
  { s with node := { s.node with hub := s.node.hub.setWorker i w } }

def send (env : Env M) (s : Callers M) (k : ℕ) (c : FlushCall) (i : ℕ) (slot : Bool) (w : Worker M) :
    Option (Callers M) :=
  if slot then
    some ((s.setCall k c (.worker i (.queued w.queue.length))).setWorker i
      { w with queue := w.queue ++ [.flush], permits := w.permits - 1 })
  else if w.run.closed then some (s.setCall k c .returned)
  else if w.queue.length + w.permits < env.queueCapacity then
    some ((s.setCall k c (.worker i (.holding true))).setWorker i { w with permits := w.permits + 1 })
  else none

def newCall (s : Callers M) (name : String) : FlushCall where
  owed := s.sent.filter fun r => r.item.stream == name
  stage := ((s.node.hub.route name).map fun i => .worker i (.holding false)).getD .returned

def follow (s : Callers M) (node : State M) : Callers M where
  node := node
  sent := s.sent ∪ node.hub.records
  calls := s.calls.map (FlushCall.after s.node.hub node.hub)

def step (env : Env M) (s : Callers M) : CallAction M → Option (Callers M)
  | .node .crash => (s.node.step env .crash).map fun node => { node }
  | .node a => (s.node.step env a).map s.follow
  | .call name => some { s with calls := s.calls ++ [s.newCall name] }
  | .send k =>
    (s.calls[k]?).bind fun c =>
      match c.stage with
      | .worker i (.holding slot) => (s.node.hub.workers[i]?).bind (s.send env k c i slot)
      | _ => none
  | .wake k =>
    (s.calls[k]?).bind fun c =>
      match c.stage with
      | .worker _ .answered => some (s.setCall k c .returned)
      | .worker i (.queued _) =>
        (s.node.hub.workers[i]?).bind fun w =>
          match w.run with
          | .exited => some (s.setCall k c .returned)
          | _ => none
      | _ => none

end Callers

/-! ## What a call may rely on -/

/-- The flush has dropped the record on purpose: its document could not be indexed, or its stream or
row is gone. -/
def Fate.dropped : Fate M → Bool
  | .unindexable _ _ | .stale _ | .deleted _ => true
  | .published _ | .rejected | .corrupt | .undelivered => false

def State.Handled (s : State M) (r : LogRecord) : Prop :=
  (∃ row, (row, r) ∈ s.hub.store.published) ∨ ∃ fate, (r, fate) ∈ s.settled ∧ fate.dropped = true

/-- **What `flush_stream` promises**: when it returns, everything it owes is handled. -/
def Callers.ReturnsLast (s : Callers M) : Prop :=
  ∀ c ∈ s.calls, c.stage = .returned → ∀ r ∈ c.owed, s.node.Handled r

/-- **The condition**: when a call looks for its worker, the stream's other workers have no record
left; when it finds the channel closed, neither has that worker; and no build is torn down. -/
def RetiredDone (s : Callers M) : CallAction M → Prop
  | .call name => ∀ j < s.node.hub.workers.length, ∀ w ∈ s.node.hub.workers[j]?,
      w.name = name → s.node.hub.route name ≠ some j → w.records = []
  | .send k => ∀ c ∈ s.calls[k]?,
      match c.stage with
      | .worker i (.holding false) =>
        ∀ w ∈ s.node.hub.workers[i]?, w.run.closed = true → w.records = []
      | _ => True
  | .node (.worker _ (.build .aborted)) => False
  | _ => True

instance (s : Callers M) (a : CallAction M) : Decidable (RetiredDone s a) := by
  unfold RetiredDone
  split
  on_goal 2 => exact @Option.decidableForallMem _ _ (fun c => by split <;> infer_instance) _
  all_goals infer_instance

/-! ## The messages ahead -/

namespace Worker

variable {env : Env M} {row : Option (StreamRow M)} {w w' : Worker M} {eff : Effect M} {f : Flush M}
  {last : Bool} {input : Input} {r : LogRecord} {n : ℕ}

def upTo (w : Worker M) (n : ℕ) : Worker M :=
  { w with queue := w.queue.take n }

theorem takes_upTo_mono {m : ℕ} (hnm : n ≤ m) (h : (w.upTo n).Takes r) : (w.upTo m).Takes r := by
  rcases h with ⟨hdrained, hr⟩ | hr
  · exact .inl ⟨hdrained, ((take_prefix_take_left hnm).filterMap _).subset hr⟩
  · exact .inr hr

theorem takes_upTo_append {msgs : List Msg} {permits : ℕ} (h : (w.upTo n).Takes r) :
    ({ w with queue := w.queue ++ msgs, permits }.upTo n).Takes r := by
  rcases h with ⟨hdrained, hr⟩ | hr
  · refine .inl ⟨hdrained, ?_⟩
    simp only [upTo, take_append, filterMap_append] at hr ⊢
    exact mem_append_left _ hr
  · exact .inr hr

variable {queue : List Msg}

theorem takes_upTo_drain {msg : Msg} (hqueue : w.queue = msg :: queue) (h : (w.upTo n).Takes r) :
    (({ w with queue }.drain msg).upTo (n - 1)).Takes r := by
  have hfirst : (w.upTo (n - 1 + 1)).queue = msg :: queue.take (n - 1) := by
    rw [upTo, hqueue, take_succ_cons]
  have hdrain := takes_drain hfirst (takes_upTo_mono (by omega) h)
  cases msg with
  | doc | flush => exact hdrain

theorem takes_upTo_startFlush (howned : w.run.owned = []) (hqueue : last = true → w.queue = [])
    (h : (w.upTo n).Takes r) : ((w.startFlush last).upTo n).Takes r := by
  have hqueue' (hlast : last = true) : (w.upTo n).queue = [] := by
    rw [upTo, hqueue hlast, take_nil]
  exact takes_startFlush (w := w.upTo n) howned hqueue' h

theorem FlushGoesOn.upTo (h : FlushGoesOn w w' f eff) (n : ℕ) :
    FlushGoesOn (w.upTo n) (w'.upTo n) f eff where
  queue := congrArg (List.take n) h.queue
  buffer := h.buffer
  drained := h.drained
  routed := h.routed
  ownsTaken := h.ownsTaken
  unpublish := h.unpublish
  owned := h.owned
  fates := h.fates

theorem queue_drain (msg : Msg) : ({ w with queue }.drain msg).queue = queue := by
  cases msg <;> rfl

theorem queue_receive (env : Env M) (msg : Msg) : ({ w with queue }.receive env msg).queue = queue := by
  rcases receive_eq env { w with queue } msg with heq | heq
  · rw [heq, queue_drain]
  · rw [heq]
    exact queue_drain msg

theorem takes_upTo_receive {msg : Msg} (hqueue : w.queue = msg :: queue) (hrun : w.run = .receiving)
    (h : (w.upTo n).Takes r) : (({ w with queue }.receive env msg).upTo (n - 1)).Takes r := by
  have hdrain := takes_upTo_drain hqueue h
  rcases receive_eq env { w with queue } msg with heq | heq
  · rwa [heq]
  · rw [heq]
    refine takes_upTo_startFlush ?_ (by simp) hdrain
    rw [run_drain, hrun]
    rfl

theorem takes_upTo_run {run : Run M} (howned : w.run.owned = []) (hdrained : run.drained = false)
    (h : (w.upTo n).Takes r) : ({ w with run }.upTo n).Takes r := by
  rcases h with ⟨-, hr⟩ | hr | hr
  · exact .inl ⟨hdrained, hr⟩
  · exact .inr (.inl hr)
  · rw [upTo, howned] at hr
    cases hr

theorem takes_upTo_step (howns : w.OwnsTaken) (h : w.step env row input = some (w', eff))
    (hr : (w.upTo n).Takes r) :
    ((∃ msg, w.queue = msg :: w'.queue) ∧ (w'.upTo (n - 1)).Takes r) ∨
      (w'.queue = w.queue ∧ ((w'.upTo n).Takes r ∨ r ∈ eff.lost ∨ r ∈ eff.confirmed)) := by
  obtain ⟨msg, queue, hqueue, rfl, hmove⟩ | ⟨hrun, hbuffer, rfl, rfl⟩ | ⟨hrun, rfl, rfl⟩ |
    ⟨hrun, hqueue, hbuffer, rfl, rfl⟩ | ⟨hstart, rfl⟩ | ⟨f, last, hrun, hflush⟩ := step_cases h
  · grind [queue_drain, takes_upTo_drain, queue_receive, takes_upTo_receive]
  · exact .inr ⟨rfl, .inl (takes_upTo_run (by rw [hrun]; rfl) rfl hr)⟩
  · exact .inr ⟨rfl, .inl (takes_upTo_run (by rw [hrun]; rfl) rfl hr)⟩
  · grind [upTo, owned, Takes]
  · rcases hstart with ⟨hrun, rfl⟩ | ⟨hrun, hqueue, rfl⟩
    all_goals have howned : w.run.owned = [] := by rw [hrun]; rfl
    · exact .inr ⟨rfl, .inl (takes_upTo_startFlush howned (by simp) hr)⟩
    · exact .inr ⟨rfl, .inl (takes_upTo_startFlush howned (fun _ => hqueue) hr)⟩
  · have hgoes := flushGoesOn hrun (howns f last hrun) hflush
    exact .inr ⟨hgoes.queue, (StepGives.of_flush (w := w.upTo n) hrun (hgoes.upTo n)).takes r hr⟩

theorem queue_step (howns : w.OwnsTaken) (h : w.step env row input = some (w', eff)) :
    (w.run.drained = false ∧ ∃ msg, w.queue = msg :: w'.queue) ∨ w'.queue = w.queue := by
  obtain ⟨msg, queue, hqueue, rfl, hmove⟩ | ⟨-, -, rfl, -⟩ | ⟨-, rfl, -⟩ | ⟨-, -, -, rfl, -⟩ |
    ⟨hstart, -⟩ | ⟨f, last, hrun, hflush⟩ := step_cases h
  · rcases hmove with ⟨hrun, rfl⟩ | ⟨hrun, rfl⟩
    · exact .inl ⟨by rw [hrun]; rfl, msg, by rwa [queue_receive]⟩
    · exact .inl ⟨by rw [hrun]; rfl, msg, by rwa [queue_drain]⟩
  · exact .inr rfl
  · exact .inr rfl
  · exact .inr rfl
  · rcases hstart with ⟨-, rfl⟩ | ⟨-, -, rfl⟩ <;> exact .inr rfl
  · exact .inr (flushGoesOn hrun (howns f last hrun) hflush).queue

theorem records_of_takes (h : w.Takes r) : r ∈ w.records := by
  rcases h with ⟨-, hr⟩ | hr
  · exact mem_append_left _ hr
  · exact mem_append_right _ (mem_append.mpr hr)

theorem takes_of_records (hdrained : w.run.drained = false) (h : r ∈ w.records) : w.Takes r :=
  (mem_append.mp h).imp (⟨hdrained, ·⟩) mem_append.mp

/-! ## A flush takes the whole buffer -/

/-- A flush in progress has taken the whole buffer and its build was not torn down, and the worker
ends with an empty buffer. -/
def Whole (w : Worker M) : Prop :=
  match w.run with
  | .receiving | .unpublished | .draining => True
  | .flushing f _ => w.buffer = [] ∧ f.aborted = false
  | .exited => w.buffer = []

theorem whole_flushing (hrun : w.run = .flushing f last) :
    w.Whole ↔ w.buffer = [] ∧ f.aborted = false := by
  rw [Whole, hrun]

theorem whole_startFlush (w : Worker M) (last : Bool) : (w.startFlush last).Whole :=
  ⟨rfl, rfl⟩

theorem whole_endFlush (hbuffer : w.buffer = []) (last : Bool) : (w.endFlush last).Whole := by
  cases last with
  | false => trivial
  | true => exact hbuffer

theorem whole_flushStep (hbuffer : w.buffer = []) (haborted : f.aborted = false)
    (hinput : input ≠ .build .aborted) (h : w.flushStep env row f last input = some (w', eff)) :
    w'.Whole ∧ eff.lost = [] := by
  have hfinish {fate : WorkItem → Fate M} (heq : w.finish f last fate = (w', eff)) :
      w'.Whole ∧ eff.lost = [] := by
    cases heq
    grind [whole_endFlush]
  obtain ⟨-, answers, -, heq⟩ | ⟨-, heq⟩ | ⟨-, heq⟩ | ⟨-, outcome, rfl, heq⟩ | ⟨mapping, -, heq⟩ :=
    flushStep_cases h
  · cases answers with
    | false =>
      cases heq
      exact ⟨⟨hbuffer, haborted⟩, rfl⟩
    | true => cases row <;> cases heq <;> exact ⟨⟨hbuffer, haborted⟩, rfl⟩
  · cases heq
    exact ⟨whole_endFlush hbuffer last, rfl⟩
  · unfold sift at heq
    split_ifs at heq <;> cases heq
    · exact ⟨⟨hbuffer, haborted⟩, rfl⟩
    · exact ⟨whole_endFlush hbuffer last, rfl⟩
    · exact ⟨⟨hbuffer, haborted⟩, rfl⟩
  · cases outcome with
    | ok =>
      unfold build at heq
      split_ifs at heq
      · exact hfinish heq
      · cases heq
        exact ⟨⟨hbuffer, haborted⟩, rfl⟩
    | failed | committed =>
      cases heq
      exact ⟨⟨hbuffer, haborted⟩, rfl⟩
    | aborted => exact absurd rfl hinput
  · exact hfinish heq

theorem whole_step (hwhole : w.Whole) (hinput : input ≠ .build .aborted)
    (h : w.step env row input = some (w', eff)) : w'.Whole ∧ eff.lost = [] := by
  obtain ⟨msg, queue, hqueue, rfl, hmove⟩ | ⟨-, -, rfl, rfl⟩ | ⟨-, rfl, rfl⟩ |
    ⟨-, -, hbuffer, rfl, rfl⟩ | ⟨hstart, rfl⟩ | ⟨f, last, hrun, hflush⟩ := step_cases h
  · grind [run_drain, receive_eq, whole_startFlush, Whole]
  · exact ⟨trivial, rfl⟩
  · exact ⟨trivial, rfl⟩
  · exact ⟨hbuffer, rfl⟩
  · grind [whole_startFlush]
  · obtain ⟨hbuffer, haborted⟩ := (whole_flushing hrun).mp hwhole
    exact whole_flushStep hbuffer haborted hinput hflush

theorem buffer_of_answers (howns : w.OwnsTaken) (hwhole : w.Whole) (h : w.step env row input = some (w', eff))
    (hwaits : w.run.answers = .accepted ∨ w.queue.head? = some .flush)
    (hanswers : w'.run.answers = .answered) : w'.buffer = [] := by
  obtain ⟨msg, queue, hqueue, rfl, hmove⟩ | ⟨-, -, rfl, rfl⟩ | ⟨-, rfl, rfl⟩ |
    ⟨-, -, hbuffer, rfl, rfl⟩ | ⟨hstart, rfl⟩ | ⟨f, last, hrun, hflush⟩ := step_cases h
  · rcases hmove with ⟨hrun, rfl⟩ | ⟨hrun, rfl⟩
    · rcases hwaits with hbusy | hhead
      · rw [hrun] at hbusy
        cases hbusy
      · rw [hqueue] at hhead
        cases hhead
        simp only [receive] at hanswers ⊢
        split_ifs at hanswers ⊢ with hbuffer
        · exact hbuffer
        · rfl
    · rw [run_drain, hrun] at hanswers
      cases hanswers
  · cases hanswers
  · cases hanswers
  · exact hbuffer
  · rcases hstart with ⟨-, rfl⟩ | ⟨-, -, rfl⟩ <;> cases hanswers
  · rw [(flushGoesOn hrun (howns f last hrun) hflush).buffer]
    exact ((whole_flushing hrun).mp hwhole).1

theorem records_step (howns : w.OwnsTaken) (h : w.step env row input = some (w', eff))
    (hr : r ∈ w.records) : r ∈ w'.records ∨ r ∈ eff.lost ∨ r ∈ eff.confirmed := by
  have htakes (hr : w.Takes r) : r ∈ w'.records ∨ r ∈ eff.lost ∨ r ∈ eff.confirmed :=
    ((takes_step howns h).takes r hr).imp_left records_of_takes
  rcases mem_append.mp hr with hr | hr
  · rcases queue_step howns h with ⟨hdrained, -⟩ | hqueue
    · exact htakes (.inl ⟨hdrained, hr⟩)
    · exact .inl (mem_append_left _ (by rwa [hqueue]))
  · exact htakes (.inr (mem_append.mp hr))

end Worker

/-! ## A message on its way -/

namespace Wait

variable {env : Env M} {row : Option (StreamRow M)} {w w' : Worker M} {eff : Effect M} {input : Input}
  {r : LogRecord} {wait : Wait}

def Placed (w : Worker M) : Wait → Prop
  | .holding _ | .answered => True
  | .queued n => w.queue[n]? = some .flush
  | .accepted => w.run.answers = .accepted

def Ahead (w : Worker M) (r : LogRecord) : Wait → Prop
  | .holding _ => w.Takes r
  | .queued n => (w.upTo n).Takes r
  | .accepted => (w.upTo 0).Takes r
  | .answered => False

theorem placed_answers (run : Run M) (h : w.run = run) : run.answers.Placed w := by
  subst h
  cases hrun : w.run with
  | receiving | exited => trivial
  | unpublished | draining | flushing => simp [answers, Placed, hrun]

theorem channel (hplaced : wait.Placed w) (msgs : List Msg) (permits : ℕ) :
    wait.after w { w with queue := w.queue ++ msgs, permits } = wait ∧
      wait.Placed { w with queue := w.queue ++ msgs, permits } ∧
      ∀ r, wait.Ahead w r → wait.Ahead { w with queue := w.queue ++ msgs, permits } r := by
  cases wait with
  | holding slot =>
    refine ⟨rfl, trivial, fun r hr => ?_⟩
    rcases hr with ⟨hdrained, hr⟩ | hr
    · refine .inl ⟨hdrained, ?_⟩
      grind
    · exact .inr hr
  | queued n =>
    refine ⟨if_pos (by simp), ?_, fun _ => takes_upTo_append⟩
    grind [Placed]
  | accepted => exact ⟨hplaced, hplaced, fun _ => takes_upTo_append⟩
  | answered => exact ⟨rfl, trivial, fun _ => id⟩

theorem ahead_answers (hbuffer : w.run.answers = .answered → w.buffer = []) (hr : (w.upTo 0).Takes r) :
    w.run.answers.Ahead w r := by
  cases hanswers : w.run.answers with
  | accepted => exact hr
  | answered => grind [owned_of_answers, upTo, Takes]
  | holding | queued => cases hrun : w.run <;> simp [answers, hrun] at hanswers

theorem worker (howns : w.OwnsTaken) (hwhole : w.Whole) (hplaced : wait.Placed w)
    (h : w.step env row input = some (w', eff)) :
    (wait.after w w').Placed w' ∧ ∀ r, wait.Ahead w r →
      (wait.after w w').Ahead w' r ∨ r ∈ eff.lost ∨ r ∈ eff.confirmed := by
  have hanswers := buffer_of_answers howns hwhole h
  cases wait with
  | holding slot => exact ⟨trivial, (takes_step howns h).takes⟩
  | queued n =>
    rcases queue_step howns h with ⟨-, msg, hqueue⟩ | hqueue
    · have hmoved : ¬w.queue.length ≤ w'.queue.length := by simp [hqueue]
      have htakes (r : LogRecord) (hr : (w.upTo n).Takes r) : (w'.upTo (n - 1)).Takes r := by
        rcases takes_upTo_step howns h hr with ⟨-, hr⟩ | ⟨hsame, -⟩
        · exact hr
        · exact absurd (hsame ▸ le_rfl) hmoved
      cases n with
      | zero =>
        have hhead : w.queue.head? = some .flush := head?_eq_getElem?.trans hplaced
        simp only [after, if_neg hmoved]
        exact ⟨placed_answers _ rfl, fun r hr => .inl (ahead_answers (hanswers (.inr hhead)) (htakes r hr))⟩
      | succ n =>
        simp only [after, if_neg hmoved]
        rw [Placed, hqueue, getElem?_cons_succ] at hplaced
        exact ⟨hplaced, fun r hr => .inl (htakes r hr)⟩
    · simp only [after, hqueue, le_refl, if_true]
      refine ⟨by rwa [Placed, hqueue], fun r hr => ?_⟩
      rcases takes_upTo_step howns h hr with ⟨⟨msg, hmsg⟩, -⟩ | ⟨-, hr⟩
      · simp [hqueue] at hmsg
      · exact hr
  | accepted =>
    refine ⟨placed_answers _ rfl, fun r hr => ?_⟩
    rcases takes_upTo_step howns h hr with ⟨-, hr⟩ | ⟨-, hr | hr⟩
    · exact .inl (ahead_answers (hanswers (.inl hplaced)) hr)
    · exact .inl (ahead_answers (hanswers (.inl hplaced)) hr)
    · exact .inr hr
  | answered => exact ⟨trivial, fun _ => False.elim⟩

end Wait

/-! ## The workers of a node -/

namespace State

variable {env : Env M} {s s' : State M} {a : Action M}

/-- What a step can do to the workers and the map, if it is not a restart: nothing, a sender moves, a
worker moves, or a worker is asked to flush. -/
inductive MovesHub (env : Env M) (s : State M) (a : Action M) (s' : State M) : Prop
  | still (hworkers : s'.hub.workers = s.hub.workers) (hroute : s'.hub.route = s.hub.route)
  | sender {blocking ok : Bool} {snd : Sender M} {d : Delivery M} {hub : Hub M}
      (h : Hub.Delivers env blocking ok s.hub snd d hub) (hhub : s'.hub = hub)
  | worker {i : ℕ} {input : Input} {w w' : Worker M} {eff : Effect M}
      (haction : a = .worker i input) (hi : s.hub.workers[i]? = some w)
      (h : w.step env (s.hub.store.streams w.name) input = some (w', eff))
      (hnext : s' = { s with hub := s.hub.setWorker i w' }.apply w.name w.target.id eff)
  | asks {i : ℕ} {w : Worker M} {msgs : List Msg} {permits : ℕ} (hi : s.hub.workers[i]? = some w)
      (hhub : s'.hub = s.hub.setWorker i { w with queue := w.queue ++ msgs, permits })

theorem movesHub_replays {ok : Bool} (h : Replays env ok s s') : MovesHub env s a s' := by
  cases h with
  | stops | yields | issues => exact .still rfl rfl
  | @tomb r =>
    have hworkers := s.hub.streamInfo_workers env r.item.stream ok
    have hroute := s.hub.streamInfo_route env r.item.stream ok
    unfold replayTomb
    rcases hinfo : s.hub.streamInfo env r.item.stream ok with ⟨_ | id, hub⟩
    all_goals
      rw [hinfo] at hworkers hroute
      exact .still hworkers hroute
  | upsert =>
    unfold replayUpsert
    split_ifs <;> exact .still rfl rfl
  | check =>
    refine .still ?_ ?_ <;> rw [replayCheck_hub]
  | deliver _ hd => exact .sender hd (afterReplayDelivery_hub ..)

theorem movesHub (h : Moves env s a s') (hcrash : a ≠ .crash) : MovesHub env s a s' := by
  cases h with
  | outside | append | appendFails | unlink => exact .still rfl rfl
  | request _ hserves =>
    cases hserves with
    | plan | issue | route | answer => exact .still rfl rfl
    | deliver _ _ hd => exact .sender hd (afterDelivery_hub ..)
  | replay _ hreplays => exact movesHub_replays hreplays
  | worker hi hworker => exact .worker rfl hi hworker rfl
  | flushStream hi => exact .asks hi rfl
  | crash => exact absurd rfl hcrash

theorem workerAt (h : MovesHub env s a s') {i : ℕ} {w : Worker M} (hi : s.hub.workers[i]? = some w) :
    (∃ msgs permits, s'.hub.workers[i]? = some { w with queue := w.queue ++ msgs, permits }) ∨
      ∃ input w' eff, a = .worker i input ∧ s'.hub.workers[i]? = some w' ∧
        w.step env (s.hub.store.streams w.name) input = some (w', eff) ∧
        s'.settled = s.settled ++ eff.confirm.getD [] := by
  cases h with
  | still hworkers => exact .inl ⟨[], w.permits, by rw [hworkers, hi, append_nil]⟩
  | sender hd hhub => exact .inl (hhub ▸ hd.channel hi)
  | @worker j input v v' eff haction hj hstep hnext =>
    subst hnext
    have hworkers := Hub.getElem?_setWorker j v' hi
    split_ifs at hworkers with hji
    · subst hji
      rw [hj] at hi
      cases hi
      refine .inr ⟨input, v', eff, haction, ?_, hstep, apply_settled ..⟩
      rw [apply_hub]
      exact hworkers
    · refine .inl ⟨[], w.permits, ?_⟩
      rw [apply_hub, append_nil]
      exact hworkers
  | @asks j v msgs permits hj hhub =>
    rw [hhub, Hub.getElem?_setWorker j _ hi]
    split_ifs with hji
    · grind
    · exact .inl ⟨[], w.permits, by rw [append_nil]⟩

theorem routed_moves (hrows : RowsInv env False s) (howns : ∀ w ∈ s.hub.workers, w.OwnsTaken)
    (hrouted : s.hub.Routed) (h : MovesHub env s a s') : s'.hub.Routed := by
  cases h with
  | still hworkers hroute =>
    intro name i hi
    rw [hroute] at hi
    rw [hworkers]
    exact hrouted name i hi
  | sender hd hhub => exact hhub ▸ hd.routed hrouted
  | @worker j input v v' eff haction hj hstep hnext =>
    subst hnext
    rw [apply_hub]
    intro name i hi
    have hold : s.hub.route name = some i := RowsInv.update_none hi
    obtain ⟨w, hw, hrun⟩ := hrouted name i hold
    refine ⟨_, Hub.getElem?_setWorker j v' hw, ?_⟩
    split_ifs with hji
    · subst hji
      rw [hj] at hw
      cases hw
      have hgives := takes_step (howns v (mem_of_getElem? hj)) hstep
      rcases hgives.routed hrun with hrun' | hunpublish
      · exact hrun'
      · have hnamed := hrows.hub.route name j hold
        grind [Hub.nameOf]
    · exact hrun
  | @asks j v msgs permits hj hhub =>
    intro name i hi
    rw [hhub] at hi ⊢
    obtain ⟨w, hw, hrun⟩ := hrouted name i hi
    refine ⟨_, Hub.getElem?_setWorker j _ hw, ?_⟩
    split_ifs with hji
    · grind
    · exact hrun

theorem settled_subset (h : s.step env a = some s') (hcrash : a ≠ .crash) : s.settled ⊆ s'.settled := by
  rcases step_flow h with ⟨gone, entries, hflow⟩ | ⟨_, rfl⟩ | ⟨_, rfl⟩ | ⟨_, rfl⟩ | rfl
  · rw [hflow.settled]
    exact subset_append_left ..
  all_goals
    first
    | exact absurd rfl hcrash
    | cases moves_of_step h <;> exact Subset.refl _

def Flushed (s : State M) (r : LogRecord) : Prop :=
  ∃ fate, (r, fate) ∈ s.settled ∧ fate.streamId?.isSome = true

variable {r : LogRecord}

theorem Flushed.mono (h : s.Flushed r) (hsettled : s.settled ⊆ s'.settled) : s'.Flushed r := by
  obtain ⟨fate, hmem, hfate⟩ := h
  exact ⟨fate, hsettled hmem, hfate⟩

theorem Flushed.handled (h : s.Flushed r) (hrows : RowsInv env False s) : s.Handled r := by
  obtain ⟨fate, hmem, hfate⟩ := h
  have hjustified := hrows.settled _ hmem
  cases fate with
  | published => exact .inl hjustified
  | unindexable | stale | deleted => exact .inr ⟨_, hmem, rfl⟩
  | rejected | corrupt | undelivered => cases hfate

theorem flushed_of_confirmed {row : Option (StreamRow M)} {w w' : Worker M} {input : Input}
    {eff : Effect M} (howns : w.OwnsTaken) (h : w.step env row input = some (w', eff))
    (hsettled : s'.settled = s.settled ++ eff.confirm.getD []) (hr : r ∈ eff.confirmed) :
    s'.Flushed r := by
  obtain ⟨⟨r, fate⟩, he, rfl⟩ := List.mem_map.mp hr
  refine ⟨fate, ?_, (takes_step howns h).fates _ he⟩
  grind

end State

theorem WorkerOk.stream_of_records {env : Env M} {current : Prop} {store : Metastore M} {w : Worker M}
    (h : WorkerOk env current store w) {r : LogRecord} (hr : r ∈ w.records) :
    r.item.stream = w.name := by
  rcases mem_append.mp hr with hr | hr
  · obtain ⟨msg, hmsg, hrecord⟩ := mem_filterMap.mp hr
    cases msg with
    | flush => cases hrecord
    | doc x =>
      cases hrecord
      exact (h.queue x hmsg).stream
  · rcases mem_append.mp hr with hr | hr
    · obtain ⟨x, hx, rfl⟩ := List.mem_map.mp hr
      exact (h.buffer x hx).stream
    · cases hrun : w.run with
      | flushing f last =>
        rw [hrun] at hr
        obtain ⟨x, hx, rfl⟩ := List.mem_map.mp hr
        exact ((h.flush f last hrun).owned x hx).stream
      | receiving | unpublished | draining | exited => simp [hrun, owned] at hr

/-! ## Every call -/

def FlushCall.Ok (s : State M) (c : FlushCall) : Prop :=
  match c.stage with
  | .returned => ∀ r ∈ c.owed, s.Flushed r
  | .worker i wait => ∃ w, s.hub.workers[i]? = some w ∧ wait.Placed w ∧
      ∀ r ∈ c.owed, wait.Ahead w r ∨ s.Flushed r

structure CallsInv (env : Env M) (s : Callers M) : Prop where
  rows : RowsInv env False s.node
  owns : ∀ w ∈ s.node.hub.workers, w.OwnsTaken
  whole : ∀ w ∈ s.node.hub.workers, w.Whole
  routed : s.node.hub.Routed
  sent : ∀ r ∈ s.sent, (∃ w ∈ s.node.hub.workers, r ∈ w.records) ∨ s.node.Flushed r
  calls : ∀ c ∈ s.calls, c.Ok s.node

namespace CallsInv

variable {env : Env M} {s s' : Callers M}

theorem init (env : Env M) : CallsInv env (Callers.init : Callers M) := by
  refine ⟨.init env False, ?_, ?_, ?_, ?_, ?_⟩ <;> simp [Callers.init, State.init, Hub.Routed]

variable {node : State M} {a : Action M} {i k : ℕ} {w : Worker M} {c : FlushCall}

theorem crash (h : CallsInv env s) (hstep : s.node.step env .crash = some node) :
    CallsInv env { node } := by
  refine ⟨h.rows.step False.elim hstep, ?_, ?_, ?_, by simp, by simp⟩
  all_goals
    cases hstep
    simp [restart, Hub.Routed]

theorem record_moves (h : CallsInv env s) (hmoves : MovesHub env s.node a node)
    (hcond : RetiredDone s (.node a)) (hi : s.node.hub.workers[i]? = some w) {r : LogRecord}
    (hr : r ∈ w.records) : (∃ w' ∈ node.hub.workers, r ∈ w'.records) ∨ node.Flushed r := by
  have hmem := mem_of_getElem? hi
  rcases workerAt hmoves hi with ⟨msgs, permits, hi'⟩ | ⟨input, w', eff, rfl, hi', hstep, hsettled⟩
  · refine .inl ⟨_, mem_of_getElem? hi', ?_⟩
    rcases mem_append.mp hr with hr | hr
    · exact mem_append_left _ (by simpa using .inl (by simpa using hr))
    · exact mem_append_right _ hr
  · have hlost := (whole_step (h.whole w hmem) (by rintro rfl; exact hcond) hstep).2
    rcases records_step (h.owns w hmem) hstep hr with hr | hr | hr
    · grind
    · rw [hlost] at hr
      cases hr
    · exact .inr (flushed_of_confirmed (h.owns w hmem) hstep hsettled hr)

theorem call_moves (h : CallsInv env s) (hmoves : MovesHub env s.node a node)
    (hcond : RetiredDone s (.node a)) (hkept : s.node.settled ⊆ node.settled) (hc : c.Ok s.node) :
    (c.after s.node.hub node.hub).Ok node := by
  unfold FlushCall.Ok at hc
  unfold FlushCall.after
  cases hstage : c.stage with
  | returned =>
    rw [hstage] at hc
    simp only [FlushCall.Ok, hstage]
    exact fun r hr => (hc r hr).mono hkept
  | worker i wait =>
    rw [hstage] at hc
    obtain ⟨w, hi, hplaced, howed⟩ := hc
    have hmem := mem_of_getElem? hi
    rcases workerAt hmoves hi with ⟨msgs, permits, hi'⟩ | ⟨input, w', eff, rfl, hi', hstep, hsettled⟩
    · obtain ⟨hafter, hplaced', hahead⟩ := Wait.channel hplaced msgs permits
      simp only [hi, hi', hafter, FlushCall.Ok]
      exact ⟨_, rfl, hplaced', fun r hr => (howed r hr).imp (hahead r) (·.mono hkept)⟩
    · have hlost := (whole_step (h.whole w hmem) (by rintro rfl; exact hcond) hstep).2
      obtain ⟨hplaced', hahead⟩ := Wait.worker (h.owns w hmem) (h.whole w hmem) hplaced hstep
      simp only [hi, hi', FlushCall.Ok]
      refine ⟨_, rfl, hplaced', fun r hr => ?_⟩
      rcases howed r hr with hr | hr
      · rcases hahead r hr with hr | hr | hr
        · exact .inl hr
        · rw [hlost] at hr
          cases hr
        · exact .inr (flushed_of_confirmed (h.owns w hmem) hstep hsettled hr)
      · exact .inr (hr.mono hkept)

theorem follow (h : CallsInv env s) (hcrash : a ≠ .crash) (hcond : RetiredDone s (.node a))
    (hstep : s.node.step env a = some node) : CallsInv env (s.follow node) := by
  have hmoves := movesHub (moves_of_step hstep) hcrash
  have hkept := settled_subset hstep hcrash
  refine ⟨h.rows.step False.elim hstep, ?_, ?_, routed_moves h.rows h.owns h.routed hmoves,
    fun r hr => ?_, fun c hc => ?_⟩
  · refine step_workers ?_ (fun _ _ _ hw => hw) h.owns ?_ hstep
    · exact fun name row => ownsTaken_of_run (by simp)
    · intro i input w w' eff _ hi hworker
      exact (takes_step (h.owns w (mem_of_getElem? hi)) hworker).ownsTaken
  · refine step_workers (fun _ _ => trivial) (fun _ _ _ hw => hw) h.whole ?_ hstep
    rintro i input w w' eff rfl hi hworker
    exact (whole_step (h.whole w (mem_of_getElem? hi)) (by rintro rfl; exact hcond)
      hworker).1
  · rcases mem_union_iff.mp hr with hr | hr
    · rcases h.sent r hr with ⟨w, hw, hr⟩ | hr
      · obtain ⟨i, hi⟩ := mem_iff_getElem?.mp hw
        exact h.record_moves hmoves hcond hi hr
      · exact .inr (hr.mono hkept)
    · exact .inl (mem_flatMap.mp hr)
  · obtain ⟨c₀, hc₀, rfl⟩ := List.mem_map.mp hc
    exact h.call_moves hmoves hcond hkept (h.calls c₀ hc₀)

theorem call (h : CallsInv env s) (name : String) (hcond : RetiredDone s (.call name)) :
    CallsInv env { s with calls := s.calls ++ [s.newCall name] } := by
  refine ⟨h.rows, h.owns, h.whole, h.routed, h.sent, fun c hc => ?_⟩
  rcases mem_append.mp hc with hc | hc
  · exact h.calls c hc
  rw [mem_singleton.mp hc]
  -- what is not confirmed is with the worker in the map
  have howed (r : LogRecord) (hr : r ∈ (s.newCall name).owed) :
      (∃ i w, s.node.hub.route name = some i ∧ s.node.hub.workers[i]? = some w ∧ r ∈ w.records) ∨
        s.node.Flushed r := by
    obtain ⟨hsent, hname⟩ := mem_filter.mp hr
    rcases h.sent r hsent with ⟨w, hw, hr⟩ | hr
    · obtain ⟨j, hj⟩ := mem_iff_getElem?.mp hw
      have hstream := (h.rows.hub.workers w hw).stream_of_records hr
      refine .inl ⟨j, w, ?_, hj, hr⟩
      by_contra hroute
      have hnone := hcond j (List.getElem?_eq_some_iff.mp hj).1 w hj
        (hstream.symm.trans (beq_iff_eq.mp hname)) hroute
      rw [hnone] at hr
      cases hr
    · exact .inr hr
  unfold Ok
  cases hroute : s.node.hub.route name with
  | none =>
    grind [newCall]
  | some i =>
    obtain ⟨w, hw, hrun⟩ := h.routed name i hroute
    simp only [newCall, hroute, map_some, getD_some]
    refine ⟨w, hw, trivial, fun r hr => ?_⟩
    rcases howed r hr with ⟨j, v, hj, hv, hr⟩ | hr
    · rw [hroute] at hj
      cases hj
      rw [hw] at hv
      cases hv
      exact .inl (takes_of_records (drained_of_closed (closed_of_routed hrun)) hr)
    · exact .inr hr

theorem setCall (h : CallsInv env s) (k : ℕ) {stage : CallStage}
    (hc : Ok s.node { c with stage }) : CallsInv env (s.setCall k c stage) := by
  refine ⟨h.rows, h.owns, h.whole, h.routed, h.sent, fun c' hc' => ?_⟩
  rcases mem_or_eq_of_mem_set hc' with hc' | rfl
  · exact h.calls c' hc'
  · exact hc

theorem setWorker (h : CallsInv env s) (hi : s.node.hub.workers[i]? = some w) (msgs : List Msg)
    (hmsgs : msgs ⊆ [.flush]) (permits : ℕ) :
    CallsInv env (s.setWorker i { w with queue := w.queue ++ msgs, permits }) := by
  have hmem := mem_of_getElem? hi
  have hset {p : Worker M → Prop} (hall : ∀ v ∈ s.node.hub.workers, p v)
      (hw : p { w with queue := w.queue ++ msgs, permits }) :
      ∀ v ∈ (s.node.hub.setWorker i { w with queue := w.queue ++ msgs, permits }).workers, p v := by
    intro v hv
    rcases mem_or_eq_of_mem_set hv with hv | rfl
    · exact hall v hv
    · exact hw
  have hok := h.rows.hub.workers w hmem
  have hqueue : ∀ x, .doc x ∈ w.queue ++ msgs → ItemOk s.node.hub.store w.name x := by
    intro x hx
    rcases mem_append.mp hx with hx | hx
    · exact hok.queue x hx
    · simpa using hmsgs hx
  have hhub := Hub.ok_setWorker h.rows.hub hi (⟨hqueue, hok.buffer, hok.flush⟩ :
      WorkerOk env False s.node.hub.store { w with queue := w.queue ++ msgs, permits }) rfl
  have hmoves : MovesHub env s.node (.flushStream i)
      (s.setWorker i { w with queue := w.queue ++ msgs, permits }).node := .asks hi rfl
  refine ⟨h.rows.moveHub hhub.1 hhub.2, hset h.owns (h.owns w hmem), hset h.whole (h.whole w hmem),
    routed_moves h.rows h.owns h.routed hmoves, fun r hr => ?_, fun c hc => ?_⟩
  · rcases h.sent r hr with ⟨v, hv, hr⟩ | hr
    · obtain ⟨j, hj⟩ := mem_iff_getElem?.mp hv
      exact h.record_moves hmoves trivial hj hr
    · exact .inr hr
  · have hc' := h.calls c hc
    unfold Ok at hc' ⊢
    split at hc'
    · exact hc'
    · obtain ⟨v, hj, hplaced, howed⟩ := hc'
      rcases workerAt hmoves hj with ⟨msgs', permits', hj'⟩ | ⟨_, _, _, haction, -⟩
      · obtain ⟨-, hplaced', hahead⟩ := Wait.channel hplaced msgs' permits'
        exact ⟨_, hj', hplaced', fun r hr => (howed r hr).imp_left (hahead r)⟩
      · cases haction

theorem send (h : CallsInv env s) (hk : s.calls[k]? = some c) {slot : Bool}
    (hstage : c.stage = .worker i (.holding slot)) (hcond : RetiredDone s (.send k))
    (hi : s.node.hub.workers[i]? = some w) (hstep : s.send env k c i slot w = some s') :
    CallsInv env s' := by
  have hc := h.calls c (mem_of_getElem? hk)
  simp only [Ok, hstage] at hc
  obtain ⟨v, hv, -, howed⟩ := hc
  rw [hi] at hv
  cases hv
  unfold Callers.send at hstep
  split_ifs at hstep with hslot hclosed hroom
  · cases hstep
    refine (h.setWorker hi [.flush] (Subset.refl _) (w.permits - 1)).setCall k ?_
    refine ⟨_, (Hub.getElem?_setWorker i _ hi).trans (by rw [if_pos rfl]), by simp [Wait.Placed],
      fun r hr => (howed r hr).imp_left fun hr => ?_⟩
    refine takes_upTo_append ?_
    rwa [upTo, take_length]
  · cases hstep
    refine h.setCall k fun r hr => ?_
    have hcond' := hcond c hk
    simp only [hstage, Bool.eq_false_iff.mpr hslot] at hcond'
    rcases howed r hr with hr | hr
    · have hrecords := records_of_takes hr
      rw [hcond' w hi hclosed] at hrecords
      cases hrecords
    · exact hr
  · cases hstep
    have h' := h.setWorker hi [] (by simp) (w.permits + 1)
    rw [append_nil] at h'
    refine h'.setCall k ⟨{ w with permits := w.permits + 1 }, ?_, trivial, howed⟩
    exact (Hub.getElem?_setWorker i _ hi).trans (by rw [if_pos rfl])

theorem wake (h : CallsInv env s) (hk : s.calls[k]? = some c)
    (hanswered : ∀ i wait, c.stage = .worker i wait → ∀ w, s.node.hub.workers[i]? = some w →
      ∀ r, ¬ wait.Ahead w r) : CallsInv env (s.setCall k c .returned) := by
  refine h.setCall k ?_
  have hc := h.calls c (mem_of_getElem? hk)
  grind [Ok]

theorem step (h : CallsInv env s) {a : CallAction M} (hcond : RetiredDone s a)
    (hstep : s.step env a = some s') : CallsInv env s' := by
  cases a with
  | node a =>
    by_cases hcrash : a = .crash
    · subst hcrash
      obtain ⟨node, hnode, rfl⟩ : ∃ node, s.node.step env .crash = some node ∧ { node } = s' :=
        map_eq_some_iff.mp hstep
      exact h.crash hnode
    · have hfollow : (s.node.step env a).map s.follow = some s' := by
        cases a <;> first | exact hstep | exact absurd rfl hcrash
      obtain ⟨node, hnode, rfl⟩ := map_eq_some_iff.mp hfollow
      exact h.follow hcrash hcond hnode
  | call name =>
    cases hstep
    exact h.call name hcond
  | send k =>
    obtain ⟨c, hk, hsend⟩ := bind_eq_some_iff.mp hstep
    split at hsend
    · next i slot hstage =>
        obtain ⟨w, hi, hsend⟩ := bind_eq_some_iff.mp hsend
        exact h.send hk hstage hcond hi hsend
    · cases hsend
  | wake k =>
    obtain ⟨c, hk, hwake⟩ := bind_eq_some_iff.mp hstep
    split at hwake
    · next i hstage =>
        cases hwake
        refine h.wake hk ?_
        rintro j wait hstage' w - r hr
        rw [hstage] at hstage'
        cases hstage'
        exact hr
    · next i n hstage =>
        obtain ⟨w, hi, hwake⟩ := bind_eq_some_iff.mp hwake
        split at hwake
        · next hrun =>
            cases hwake
            refine h.wake hk ?_
            rintro j wait hstage' v hv r hr
            rw [hstage] at hstage'
            cases hstage'
            rw [hi] at hv
            cases hv
            have hbuffer := h.whole w (mem_of_getElem? hi)
            rw [Whole, hrun] at hbuffer
            simp [Wait.Ahead, Takes, upTo, hrun, hbuffer, drained, owned] at hr
        · cases hwake
    · cases hwake

end CallsInv

/-- The flush of a worker, up to the next message. -/
def flushes (i : ℕ) : List (Action Unit) :=
  [.worker i (.lookup true), .worker i .tick, .worker i (.build .ok), .worker i .tick]

def retires : List (Action Unit) :=
  [.worker 0 .recv, .worker 0 .timeout] ++ flushes 0 ++ [.worker 0 .timeout, .worker 0 .tick]

def sentOne : List (CallAction Unit) :=
  (([.createStream "s" (), appendDoc false "a"] ++ serve 0 9).map .node)

/-- The first worker publishes its document and retires with nothing left to do, so that a call returns
at once.  A second worker takes the next document; the second call finds it, sends its message, and
returns when the flush that the message brings on has ended. -/
def retiredBefore : List (CallAction Unit) :=
  sentOne ++ retires.map .node ++ [.call "s", .node (appendDoc false "b")] ++ (serve 1 9).map .node ++
    [.node (.worker 1 .recv), .call "s", .send 1, .send 1, .node (.worker 1 .recv)] ++
    (flushes 1).map .node ++ [.wake 1]

end RSearch.Pipeline
