import RSearch.Lib.Runs
import RSearch.Replication.Object

/-!
# Writing an object to a quorum

`put` and `put_file` write the object to the node's own root, record its placement, stream it to each
target's address, and return once the copies they count reach the quorum.  The receiver records a
row under its own id.  If the quorum is not met, the call takes back its own file, the copies of the
peers that answered with success, and all rows of the key.
-/

namespace RSearch.Replication

open List Option Cluster Runs Object

/-! ## The call and its pushes -/

inductive Stage where
  | sending
  /-- The file stands under the key. -/
  | stored
  /-- The row is committed. -/
  | recorded
  /-- The receiver has answered with success. -/
  | finished
  /-- The receiver has given up; whether it had stored the file by then. -/
  | stopped (stored : Bool)
  deriving DecidableEq

structure Push where
  id : String
  address : String
  stage : Stage
  answer : Option Bool
  deriving DecidableEq

open Push

def Push.counted (p : Push) : Bool := p.answer == some true

def Push.ended (p : Push) : Bool :=
  match p.stage with
  | .finished | .stopped _ => true
  | _ => false

inductive Receipt where
  | store
  | record
  | finish
  | stop
  deriving DecidableEq

/-- **The receiver** (`put_object`): the node that answers at the push's address writes the file,
records a row under its own id, and answers. -/
def receive (network : String → Option String) (data : Bytes) (o : Object) (p : Push) :
    Receipt → Option (Object × Push)
  | .store =>
    match p.stage, network p.address with
    | .sending, some node => some (o.store node data, { p with stage := .stored })
    | _, _ => none
  | .record =>
    match p.stage, network p.address with
    | .stored, some node =>
      some (o.recordLocation node data.length, { p with stage := .recorded })
    | _, _ => none
  | .finish => if p.stage = .recorded then some (o, { p with stage := .finished }) else none
  | .stop =>
    match p.stage with
    | .sending => some (o, { p with stage := .stopped false })
    | .stored | .recorded => some (o, { p with stage := .stopped true })
    | _ => none

/-- How a file operation or a metastore statement ended for its caller, and, if it failed, whether it
took effect all the same. -/
inductive Reply where
  | ok
  | failed (applied : Bool)
  deriving DecidableEq

def Reply.applied : Reply → Bool
  | .ok => true
  | .failed applied => applied

inductive Deletion where
  | nothing
  | file
  | fileAndRow
  deriving DecidableEq

inductive Phase where
  | writing
  /-- `put_file` reads the size of what it wrote. -/
  | sizing
  | recording
  /-- `put_file` resolves the path the pushes read from. -/
  | locating
  | listing
  | waiting
  /-- The row could not be recorded. -/
  | undoing
  | rollingBack
  /-- The peers a `DELETE` still goes to. -/
  | rollingBackPeers (rest : List (String × String))
  | returned (ok : Bool)
  deriving DecidableEq

structure Setup where
  nodeId : String
  config : StorageConfig
  /-- The node that answers at an address. -/
  network : String → Option String
  data : Bytes
  /-- `put_file` rather than `put`. -/
  fromFile : Bool

def Setup.storage (c : Setup) : ReplicatedStorage := .ofConfig c.nodeId c.config

structure State where
  object : Object
  phase : Phase
  copies : ℕ
  pushed : List (String × String)
  pushes : List Push

def start (o : Object) : State := ⟨o, .writing, 1, [], []⟩

inductive Action where
  | localWrite (reply : Reply)
  | localSize (ok : Bool)
  | record (reply : Reply)
  | objectPath (ok : Bool)
  /-- `write_targets`: what the registry and the held bytes are then, unless it fails. -/
  | list (answer : Option (Nodes × (String → ℕ)))
  | receipt (i : ℕ) (r : Receipt)
  /-- The call takes the result of a push: an answer of success, or anything else. -/
  | answer (i : ℕ) (ok : Bool)
  /-- The loop ends. -/
  | settle
  | undo (reply : Reply)
  | deleteLocal (reply : Reply)
  | deletePeer (d : Deletion)
  | removeAll (reply : Reply)

def liveAfterMillis : ℕ := 30000

def writeTargets (c : Setup) (nodes : Nodes) (held : String → ℕ) : List NodeRecord :=
  replicationTargets nodes held liveAfterMillis [c.nodeId] c.storage.needed false

def spawn (targets : List NodeRecord) : List Push :=
  targets.filterMap fun t => t.address.map fun address => ⟨t.id, address, .sending, none⟩

def Object.deletedAt (o : Object) (node : String) : Deletion → Object
  | .nothing => o
  | .file => o.deleteFile node
  | .fileAndRow => (o.deleteFile node).removeLocation node

/-- **One action of the call or of one of its pushes.** -/
def step (c : Setup) (s : State) : Action → Option State
  | .localWrite reply =>
    if s.phase = .writing then
      some { s with
        object := if reply.applied then s.object.store c.nodeId c.data else s.object
        phase := if reply = .ok then (if c.fromFile then .sizing else .recording)
          else .returned false }
    else none
  | .localSize ok =>
    if s.phase = .sizing then
      some { s with phase := if ok then .recording else .returned false }
    else none
  | .record reply =>
    if s.phase = .recording then
      some { s with
        object := if reply.applied then s.object.recordLocation c.nodeId c.data.length else s.object
        phase := if reply = .ok then (if c.fromFile then .locating else .listing) else .undoing }
    else none
  | .objectPath ok =>
    if s.phase = .locating then some { s with phase := if ok then .listing else .returned false }
    else none
  | .list answer =>
    if s.phase = .listing then
      -- With a factor of one there is nothing to list.
      if c.storage.needed = 0 then some { s with phase := .waiting }
      else
        match answer with
        | none => some { s with phase := .returned false }
        | some (nodes, held) =>
          some { s with phase := .waiting, pushes := spawn (writeTargets c nodes held) }
    else none
  | .receipt i r => do
    let p ← s.pushes[i]?
    let (object, p') ← receive c.network c.data s.object p r
    some { s with object, pushes := s.pushes.set i p' }
  | .answer i ok => do
    let p ← s.pushes[i]?
    if s.phase = .waiting ∧ s.copies < c.storage.quorum ∧ p.answer = none ∧
        (ok = true → p.stage = .finished) then
      some { s with
        copies := if ok then s.copies + 1 else s.copies
        pushed := if ok then s.pushed ++ [(p.id, p.address)] else s.pushed
        pushes := s.pushes.set i { p with answer := some ok } }
    else none
  | .settle =>
    if s.phase = .waiting then
      if c.storage.quorum ≤ s.copies then some { s with phase := .returned true }
      else if ∀ p ∈ s.pushes, p.answer.isSome then some { s with phase := .rollingBack }
      else none
    else none
  | .undo reply =>
    if s.phase = .undoing then
      some { s with
        object := if reply.applied then s.object.deleteFile c.nodeId else s.object
        phase := .returned false }
    else none
  | .deleteLocal reply =>
    if s.phase = .rollingBack then
      some { s with
        object := if reply.applied then s.object.deleteFile c.nodeId else s.object
        phase := .rollingBackPeers s.pushed }
    else none
  | .deletePeer d =>
    match s.phase with
    | .rollingBackPeers ((_, address) :: rest) =>
      some { s with
        object := match c.network address with
          | some node => s.object.deletedAt node d
          | none => s.object
        phase := .rollingBackPeers rest }
    | _ => none
  | .removeAll reply =>
    if s.phase = .rollingBackPeers [] then
      some { s with
        object := if reply.applied then s.object.removeLocations else s.object
        phase := .returned false }
    else none

/-! ## What a receiver does -/

section Receiver

variable {network : String → Option String} {data : Bytes} {o o' : Object} {p p' : Push}

/-- **What a receiver can do**, one rule for each of its steps. -/
inductive Receives (network : String → Option String) (data : Bytes) (o : Object) (p : Push) :
    Receipt → Object → Push → Prop
  | store {node : String} (hstage : p.stage = .sending) (hreach : network p.address = some node) :
      Receives network data o p .store (o.store node data) { p with stage := .stored }
  | record {node : String} (hstage : p.stage = .stored) (hreach : network p.address = some node) :
      Receives network data o p .record (o.recordLocation node data.length)
        { p with stage := .recorded }
  | finish (hstage : p.stage = .recorded) :
      Receives network data o p .finish o { p with stage := .finished }
  | stopSending (hstage : p.stage = .sending) :
      Receives network data o p .stop o { p with stage := .stopped false }
  | stopStored (hstage : p.stage = .stored ∨ p.stage = .recorded) :
      Receives network data o p .stop o { p with stage := .stopped true }

variable {r : Receipt} {node : String}

theorem receives_of_receive (h : receive network data o p r = some (o', p')) :
    Receives network data o p r o' p' := by
  cases r with
  | store =>
    simp only [receive] at h
    split at h
    · next hstage hreach =>
        cases h
        exact .store hstage hreach
    · cases h
  | record =>
    simp only [receive] at h
    split at h
    · next hstage hreach =>
        cases h
        exact .record hstage hreach
    · cases h
  | finish =>
    simp only [receive] at h
    split at h
    · next hstage =>
        cases h
        exact .finish hstage
    · cases h
  | stop =>
    simp only [receive] at h
    split at h
    · next hstage =>
        cases h
        exact .stopSending hstage
    · next hstage =>
        cases h
        exact .stopStored (.inl hstage)
    · next hstage =>
        cases h
        exact .stopStored (.inr hstage)
    · cases h

theorem Receives.address (h : Receives network data o p r o' p') : p'.address = p.address := by
  cases h <;> rfl

theorem Receives.answer {r : Receipt} (h : Receives network data o p r o' p') :
    p'.answer = p.answer := by
  cases h <;> rfl

theorem Receives.not_ended (h : Receives network data o p r o' p') : p.ended = false := by
  cases h with
  | store hstage | record hstage | finish hstage | stopSending hstage => rw [ended, hstage]
  | stopStored hstage => grind [ended]

def Landed (network : String → Option String) (data : Bytes) (o : Object) (p : Push) : Prop :=
  match p.stage with
  | .stored => ∃ node, network p.address = some node ∧ o.files.lookup node = some data
  | .recorded | .finished => ∃ node, network p.address = some node ∧ o.HeldBy data node
  | _ => True

structure Keeps (data : Bytes) (o o' : Object) : Prop where
  lookup : ∀ {n}, o.files.lookup n = some data → o'.files.lookup n = some data
  held : ∀ {n}, o.HeldBy data n → o'.HeldBy data n

theorem Keeps.refl (data : Bytes) (o : Object) : Keeps data o o := ⟨id, id⟩

theorem keeps_store : Keeps data o (o.store node data) :=
  ⟨lookup_store_of_lookup, HeldBy.store⟩

theorem keeps_recordLocation {size : ℕ} : Keeps data o (o.recordLocation node size) :=
  ⟨id, HeldBy.recordLocation⟩

theorem Receives.keeps (h : Receives network data o p r o' p') : Keeps data o o' := by
  cases h with
  | store => exact keeps_store
  | record => exact keeps_recordLocation
  | finish | stopSending | stopStored => exact .refl data o

theorem Landed.keeps (h : Landed network data o p) (hkeeps : Keeps data o o') :
    Landed network data o' p := by
  unfold Landed at h ⊢
  split at h
  · exact h.imp fun _ hn => ⟨hn.1, hkeeps.lookup hn.2⟩
  · exact h.imp fun _ hn => ⟨hn.1, hkeeps.held hn.2⟩
  · exact h.imp fun _ hn => ⟨hn.1, hkeeps.held hn.2⟩
  · trivial

theorem Receives.landed (h : Receives network data o p r o' p') (hlanded : Landed network data o p) :
    Landed network data o' p' := by
  cases h with
  | store _ hreach => exact ⟨_, hreach, lookup_store⟩
  | record hstage hreach =>
    grind [heldBy_recordLocation, Landed]
  | finish hstage =>
    grind [Landed]
  | stopSending | stopStored => trivial

end Receiver

/-! ## What a step does -/

/-- **What a step can do**, one rule for each way an action can go. -/
inductive Moves (c : Setup) (s : State) : Action → State → Prop
  | write (hphase : s.phase = .writing) :
      Moves c s (.localWrite .ok) { s with
        object := s.object.store c.nodeId c.data
        phase := if c.fromFile then .sizing else .recording }
  | writeFailed (applied : Bool) (hphase : s.phase = .writing) :
      Moves c s (.localWrite (.failed applied)) { s with
        object := if applied then s.object.store c.nodeId c.data else s.object
        phase := .returned false }
  | size (hphase : s.phase = .sizing) : Moves c s (.localSize true) { s with phase := .recording }
  | sizeFailed (hphase : s.phase = .sizing) :
      Moves c s (.localSize false) { s with phase := .returned false }
  | record (hphase : s.phase = .recording) :
      Moves c s (.record .ok) { s with
        object := s.object.recordLocation c.nodeId c.data.length
        phase := if c.fromFile then .locating else .listing }
  | recordFailed (applied : Bool) (hphase : s.phase = .recording) :
      Moves c s (.record (.failed applied)) { s with
        object := if applied then s.object.recordLocation c.nodeId c.data.length else s.object
        phase := .undoing }
  | locate (hphase : s.phase = .locating) :
      Moves c s (.objectPath true) { s with phase := .listing }
  | locateFailed (hphase : s.phase = .locating) :
      Moves c s (.objectPath false) { s with phase := .returned false }
  | listNothing (answer : Option (Nodes × (String → ℕ))) (hphase : s.phase = .listing)
      (hneeded : c.storage.needed = 0) : Moves c s (.list answer) { s with phase := .waiting }
  | listFailed (hphase : s.phase = .listing) (hneeded : c.storage.needed ≠ 0) :
      Moves c s (.list none) { s with phase := .returned false }
  | list (nodes : Nodes) (held : String → ℕ) (hphase : s.phase = .listing) :
      Moves c s (.list (some (nodes, held)))
        { s with phase := .waiting, pushes := spawn (writeTargets c nodes held) }
  | receipt {i : ℕ} {r : Receipt} {p p' : Push} {o' : Object} (hp : s.pushes[i]? = some p)
      (hreceives : Receives c.network c.data s.object p r o' p') :
      Moves c s (.receipt i r) { s with object := o', pushes := s.pushes.set i p' }
  | answer {i : ℕ} {p : Push} (ok : Bool) (hp : s.pushes[i]? = some p) (hphase : s.phase = .waiting)
      (hnone : p.answer = none) (hfinished : ok = true → p.stage = .finished) :
      Moves c s (.answer i ok) { s with
        copies := if ok then s.copies + 1 else s.copies
        pushed := if ok then s.pushed ++ [(p.id, p.address)] else s.pushed
        pushes := s.pushes.set i { p with answer := some ok } }
  | acknowledge (hphase : s.phase = .waiting) (hquorum : c.storage.quorum ≤ s.copies) :
      Moves c s .settle { s with phase := .returned true }
  | giveUp (hphase : s.phase = .waiting) (hanswered : ∀ p ∈ s.pushes, p.answer.isSome) :
      Moves c s .settle { s with phase := .rollingBack }
  | undo (reply : Reply) (hphase : s.phase = .undoing) :
      Moves c s (.undo reply) { s with
        object := if reply.applied then s.object.deleteFile c.nodeId else s.object
        phase := .returned false }
  | deleteLocal (reply : Reply) (hphase : s.phase = .rollingBack) :
      Moves c s (.deleteLocal reply) { s with
        object := if reply.applied then s.object.deleteFile c.nodeId else s.object
        phase := .rollingBackPeers s.pushed }
  | deletePeer (d : Deletion) {id address : String} {rest : List (String × String)}
      (hphase : s.phase = .rollingBackPeers ((id, address) :: rest)) :
      Moves c s (.deletePeer d) { s with
        object := match c.network address with
          | some node => s.object.deletedAt node d
          | none => s.object
        phase := .rollingBackPeers rest }
  | removeAll (reply : Reply) (hphase : s.phase = .rollingBackPeers []) :
      Moves c s (.removeAll reply) { s with
        object := if reply.applied then s.object.removeLocations else s.object
        phase := .returned false }

variable {c : Setup}

theorem moves_of_step {s t : State} {a : Action} (h : step c s a = some t) : Moves c s a t := by
  cases a with
  | localWrite reply =>
    simp only [step, ite_none_right_eq_some, some.injEq] at h
    obtain ⟨hphase, rfl⟩ := h
    cases reply with
    | ok => exact .write hphase
    | failed applied => exact .writeFailed applied hphase
  | localSize ok =>
    simp only [step, ite_none_right_eq_some, some.injEq] at h
    obtain ⟨hphase, rfl⟩ := h
    cases ok with
    | true => exact .size hphase
    | false => exact .sizeFailed hphase
  | record reply =>
    simp only [step, ite_none_right_eq_some, some.injEq] at h
    obtain ⟨hphase, rfl⟩ := h
    cases reply with
    | ok => exact .record hphase
    | failed applied => exact .recordFailed applied hphase
  | objectPath ok =>
    simp only [step, ite_none_right_eq_some, some.injEq] at h
    obtain ⟨hphase, rfl⟩ := h
    cases ok with
    | true => exact .locate hphase
    | false => exact .locateFailed hphase
  | list answer =>
    simp only [step, ite_none_right_eq_some] at h
    obtain ⟨hphase, h⟩ := h
    split at h
    · next hneeded =>
        cases h
        exact .listNothing answer hphase hneeded
    · next hneeded =>
        cases answer with
        | none =>
          cases h
          exact .listFailed hphase hneeded
        | some answer =>
          cases h
          exact .list answer.1 answer.2 hphase
  | receipt i r =>
    simp only [step, bind_eq_bind, bind_eq_some_iff] at h
    obtain ⟨p, hp, ⟨o', p'⟩, hreceive, h⟩ := h
    cases h
    exact .receipt hp (receives_of_receive hreceive)
  | answer i ok =>
    simp only [step, bind_eq_bind, bind_eq_some_iff, ite_none_right_eq_some, some.injEq] at h
    obtain ⟨p, hp, ⟨hphase, -, hnone, hfinished⟩, rfl⟩ := h
    exact .answer ok hp hphase hnone hfinished
  | settle =>
    simp only [step, ite_none_right_eq_some] at h
    obtain ⟨hphase, h⟩ := h
    split at h
    · next hquorum =>
        cases h
        exact .acknowledge hphase hquorum
    · simp only [ite_none_right_eq_some, some.injEq] at h
      obtain ⟨hanswered, rfl⟩ := h
      exact .giveUp hphase hanswered
  | undo reply =>
    simp only [step, ite_none_right_eq_some, some.injEq] at h
    obtain ⟨hphase, rfl⟩ := h
    exact .undo reply hphase
  | deleteLocal reply =>
    simp only [step, ite_none_right_eq_some, some.injEq] at h
    obtain ⟨hphase, rfl⟩ := h
    exact .deleteLocal reply hphase
  | deletePeer d =>
    simp only [step] at h
    split at h
    · next hphase =>
        cases h
        exact .deletePeer d hphase
    · cases h
  | removeAll reply =>
    simp only [step, ite_none_right_eq_some, some.injEq] at h
    obtain ⟨hphase, rfl⟩ := h
    exact .removeAll reply hphase

/-! ## What the call counts -/

def reached (c : Setup) (pushes : List Push) : List String :=
  pushes.filterMap fun p => c.network p.address

/-- **The condition.**  The targets that are listed reach different nodes, none of them the writing
node. -/
def TargetsApart (c : Setup) (_ : State) : Action → Prop
  | .list (some (nodes, held)) =>
    let nodes := (writeTargets c nodes held).filterMap fun t => t.address.bind c.network
    nodes.Nodup ∧ c.nodeId ∉ nodes
  | _ => True

instance (c : Setup) (s : State) (a : Action) : Decidable (TargetsApart c s a) := by
  unfold TargetsApart
  split <;> infer_instance

theorem reached_spawn (c : Setup) (targets : List NodeRecord) :
    reached c (spawn targets) = targets.filterMap fun t => t.address.bind c.network := by
  grind [spawn, reached]

theorem reached_set {pushes : List Push} {i : ℕ} {p p' : Push} (hp : pushes[i]? = some p)
    (haddress : p'.address = p.address) : reached c (pushes.set i p') = reached c pushes := by
  have hmap : (pushes.set i p').map address = pushes.map address := by
    obtain ⟨hi, rfl⟩ := List.getElem?_eq_some_iff.mp hp
    rw [map_set, haddress, ← getElem_map address (h := by simpa using hi), set_getElem_self]
  have hreached : ∀ l : List Push, reached c l = (l.map address).filterMap c.network := by
    intro l
    rw [filterMap_map]
    rfl
  rw [hreached, hreached, hmap]

/-- **What stands while the call counts.**  The writing node has the object, every push has left what
it says, and the copies counted are the pushes that are counted, each of them finished. -/
structure Counting (c : Setup) (o : Object) (copies : ℕ) (pushes : List Push) : Prop where
  here : o.HeldBy c.data c.nodeId
  landed : ∀ p ∈ pushes, Landed c.network c.data o p
  finished : ∀ p ∈ pushes, p.counted = true → p.stage = .finished
  copies : copies = 1 + pushes.countP Push.counted
  apart : (reached c pushes).Nodup
  away : c.nodeId ∉ reached c pushes

section Counting

variable {c : Setup} {o : Object} {copies : ℕ} {pushes : List Push}

theorem Counting.nil (here : o.HeldBy c.data c.nodeId) : Counting c o 1 [] where
  here := here
  landed := by simp
  finished := by simp
  copies := rfl
  apart := nodup_nil
  away := not_mem_nil

theorem counting_spawn {targets : List NodeRecord} (here : o.HeldBy c.data c.nodeId)
    (hapart : (targets.filterMap fun t => t.address.bind c.network).Nodup)
    (haway : c.nodeId ∉ targets.filterMap fun t => t.address.bind c.network) :
    Counting c o 1 (spawn targets) := by
  have hnew : ∀ p ∈ spawn targets, p.stage = .sending ∧ p.counted = false := by
    intro p hp
    obtain ⟨t, -, ht⟩ := mem_filterMap.mp hp
    obtain ⟨address, -, rfl⟩ := map_eq_some_iff.mp ht
    exact ⟨rfl, rfl⟩
  refine ⟨here, fun p hp => ?_, fun p hp hcounted => ?_, ?_, ?_, ?_⟩
  · rw [Landed, (hnew p hp).1]
    trivial
  · grind
  · grind
  · rw [reached_spawn]
    exact hapart
  · rw [reached_spawn]
    exact haway

theorem Counting.receipt (h : Counting c o copies pushes) {i : ℕ} {p p' : Push} {r : Receipt}
    {o' : Object} (hp : pushes[i]? = some p) (hreceives : Receives c.network c.data o p r o' p') :
    Counting c o' copies (pushes.set i p') := by
  have hmem : p ∈ pushes := mem_of_getElem? hp
  have hcounted : p'.counted = p.counted := by rw [counted, hreceives.answer, counted]
  refine ⟨hreceives.keeps.held h.here, fun q hq => ?_, fun q hq hq' => ?_, ?_, ?_, ?_⟩
  · rcases mem_or_eq_of_mem_set hq with hq | rfl
    · exact (h.landed q hq).keeps hreceives.keeps
    · exact hreceives.landed (h.landed p hmem)
  · rcases mem_or_eq_of_mem_set hq with hq | rfl
    · exact h.finished q hq hq'
    · -- A push that is counted is finished, and the receiver of a finished one does nothing more.
      have hstage := h.finished p hmem (hcounted ▸ hq')
      cases hreceives <;> simp_all
  · grind [copies]
  · rw [reached_set hp hreceives.address]
    exact h.apart
  · rw [reached_set hp hreceives.address]
    exact h.away

theorem Counting.answered (h : Counting c o copies pushes) {i : ℕ} {p : Push} {ok : Bool}
    (hp : pushes[i]? = some p) (hnone : p.answer = none) (hfinished : ok = true → p.stage = .finished) :
    Counting c o (if ok then copies + 1 else copies)
      (pushes.set i { p with answer := some ok }) := by
  have hmem : p ∈ pushes := mem_of_getElem? hp
  have hsame : reached c (pushes.set i { p with answer := some ok }) = reached c pushes :=
    reached_set hp rfl
  refine ⟨h.here, fun q hq => ?_, fun q hq hq' => ?_, ?_, ?_, ?_⟩
  · rcases mem_or_eq_of_mem_set hq with hq | rfl
    · exact h.landed q hq
    · exact h.landed p hmem
  · rcases mem_or_eq_of_mem_set hq with hq | rfl
    · exact h.finished q hq hq'
    · exact hfinished (by simpa [counted] using hq')
  · obtain ⟨hi, rfl⟩ := List.getElem?_eq_some_iff.mp hp
    have hbefore : pushes[i].counted = false := by
      rw [counted, hnone]
      rfl
    rw [h.copies, countP_set hi, hbefore]
    cases ok with
    | true => simp [counted, Nat.add_assoc]
    | false => simp [counted]
  · rw [hsame]
    exact h.apart
  · rw [hsame]
    exact h.away

theorem Counting.heldByAtLeast (h : Counting c o copies pushes) : o.HeldByAtLeast c.data copies := by
  have hsub : (reached c (pushes.filter counted)).Sublist (reached c pushes) :=
    Sublist.filterMap _ filter_sublist
  have hheld : ∀ p ∈ pushes.filter counted,
      ∃ node, c.network p.address = some node ∧ o.HeldBy c.data node := by
    intro p hp
    obtain ⟨hp, hcounted⟩ := mem_filter.mp hp
    have hlanded := h.landed p hp
    rw [Landed, h.finished p hp hcounted] at hlanded
    exact hlanded
  have hlength :
      (reached c (pushes.filter counted)).length = pushes.countP counted := by
    rw [countP_eq_length_filter, reached, length_filterMap_eq_countP, countP_eq_length]
    grind
  refine ⟨c.nodeId :: reached c (pushes.filter counted), ?_, ?_, ?_⟩
  · exact nodup_cons.mpr ⟨fun hmem => h.away (hsub.subset hmem), h.apart.sublist hsub⟩
  · grind [copies]
  · intro n hn
    rcases mem_cons.mp hn with rfl | hn
    · exact h.here
    · obtain ⟨p, hp, hreach⟩ := mem_filterMap.mp hn
      grind

end Counting

def Progress (c : Setup) (s : State) : Prop :=
  match s.phase with
  | .writing => s.pushes = [] ∧ s.copies = 1
  | .sizing | .recording =>
    s.pushes = [] ∧ s.copies = 1 ∧ s.object.files.lookup c.nodeId = some c.data
  | .locating | .listing => s.pushes = [] ∧ s.copies = 1 ∧ s.object.HeldBy c.data c.nodeId
  | .waiting => Counting c s.object s.copies s.pushes
  | .returned true => Counting c s.object s.copies s.pushes ∧ c.storage.quorum ≤ s.copies
  | _ => True

theorem progress_step (s : State) (a : Action) (t : State) (h : Progress c s)
    (hcond : TargetsApart c s a) (hstep : step c s a = some t) : Progress c t := by
  cases moves_of_step hstep with
  | write hphase =>
    rw [Progress, hphase] at h
    cases c.fromFile <;> exact ⟨h.1, h.2, lookup_store⟩
  | size hphase | locate hphase =>
    rw [Progress, hphase] at h
    exact h
  | record hphase =>
    grind [heldBy_recordLocation, Progress]
  | listNothing answer hphase hneeded =>
    rw [Progress, hphase] at h
    simp only [Progress, h.1, h.2.1]
    exact .nil h.2.2
  | list nodes held hphase =>
    rw [Progress, hphase] at h
    simp only [Progress, h.2.1]
    exact counting_spawn h.2.2 hcond.1 hcond.2
  | @receipt i r p p' o' hp hreceives =>
    cases hphase : s.phase with
    | writing | sizing | recording | locating | listing =>
      grind [Progress]
    | waiting =>
      simp only [Progress, hphase] at h ⊢
      exact h.receipt hp hreceives
    | returned ok =>
      cases ok with
      | true =>
        simp only [Progress, hphase] at h ⊢
        exact ⟨h.1.receipt hp hreceives, h.2⟩
      | false => trivial
    | undoing | rollingBack | rollingBackPeers rest => trivial
  | answer ok hp hphase hnone hfinished =>
    simp only [Progress, hphase] at h ⊢
    exact h.answered hp hnone hfinished
  | acknowledge hphase hquorum =>
    grind [Progress]
  | writeFailed | sizeFailed | recordFailed | locateFailed | listFailed | giveUp | undo | deleteLocal
  | deletePeer | removeAll => trivial

/-- **A quorum of different nodes.**  In every run whose listed targets reach different nodes, none of
them the writing node, a call that has returned success left the whole object, with a placement row,
on at least as many different nodes as the effective write quorum asks for. -/
theorem quorum_held (c : Setup) (o : Object) {as : List Action} {s : State}
    (halong : Along (step c) (TargetsApart c) (start o) as) (hrun : run (step c) (start o) as = some s)
    (hreturned : s.phase = .returned true) :
    s.object.HeldByAtLeast c.data c.config.effectiveWriteQuorum := by
  have hstart : Progress c (start o) := ⟨rfl, rfl⟩
  have h := run_invariant (step c) progress_step hstart halong hrun
  rw [Progress, hreturned] at h
  obtain ⟨nodes, hnodup, hcount, hheld⟩ := h.1.heldByAtLeast
  rw [Setup.storage, ReplicatedStorage.quorum_ofConfig] at h
  exact ⟨nodes, hnodup, h.2.trans hcount, hheld⟩

def liveNode (id address : String) : NodeRecord := ⟨id, ["ingest"], some address, false, 12000⟩

/-- The node `a` writes a byte with two copies asked for; who answers where is up to the network. -/
def pairWrite (network : String → Option String) : Setup :=
  ⟨"a", ⟨2, 0⟩, network, [7], false⟩

def acknowledgedRun (nodes : Nodes) : List Action :=
  [.localWrite .ok, .record .ok, .list (some (nodes, fun _ => 0)), .receipt 0 .store,
    .receipt 0 .record, .receipt 0 .finish, .answer 0 true, .settle]

def pairNodes : Nodes :=
  ⟨[liveNode "a" "http://a:9200", liveNode "b" "http://b:9200"], by decide⟩

def pairNetwork : String → Option String
  | "http://a:9200" => some "a"
  | "http://b:9200" => some "b"
  | _ => none

/-- A write acknowledged by another node is on both. -/
theorem quorum_held_pair :
    ∃ s, run (step (pairWrite pairNetwork)) (start .absent) (acknowledgedRun pairNodes) = some s ∧
      s.phase = .returned true ∧ s.object.HeldByAtLeast [7] 2 := by
  obtain ⟨s, hrun, hreturned⟩ : ∃ s, run (step (pairWrite pairNetwork)) (start .absent)
      (acknowledgedRun pairNodes) = some s ∧ s.phase = .returned true := by
    decide +kernel
  exact ⟨s, hrun, hreturned, quorum_held (pairWrite pairNetwork) .absent (by decide +kernel) hrun
    hreturned⟩

/-- The node `a` after a restart under another id: the row it had is still live, with its address. -/
def restartedNodes : Nodes :=
  ⟨[liveNode "a" "http://a:9200", liveNode "a-before" "http://a:9200"], by decide⟩

/-- **A node counted twice.**  The node pushes the object to the address of the row it left behind,
which is its own, takes its own answer for a second copy and acknowledges the write, of which there is
one copy. -/
theorem one_node_counted_twice :
    ∃ s, run (step (pairWrite pairNetwork)) (start .absent) (acknowledgedRun restartedNodes) =
        some s ∧
      s.phase = .returned true ∧
      ¬s.object.HeldByAtLeast [7] (pairWrite pairNetwork).config.effectiveWriteQuorum := by
  decide +kernel

end RSearch.Replication
